import SearchPipeline.Proofs.Token.Bytes
import SearchPipeline.Proofs.Token.Continuation

namespace SearchPipeline

-- The same token, further on in a text.
def Token.move (distance : Nat) (token : Token) : Token := { token with start := token.start + distance }

namespace Scan

open Text

variable {previous other : Option Char} {offset : Nat} {c : Char} {cs behind : List Char}
  {found later : List Token}

-- Of the character before a token the rules ask only whether it is blank. The start is as good as one.
theorem lexeme_of_previous (h : previous.all isBlank = other.all isBlank) :
    lexeme other c cs = lexeme previous c cs := by
  have hcomment : comment? other c cs = comment? previous c cs := by
    simp only [comment?, h]
  simp only [lexeme, hcomment]

-- A text has the same tokens at the start and behind a blank, wherever that stands.
theorem Scans.move (h : Scans previous offset cs found) (other : Option Char) (distance : Nat)
    (hprevious : previous.all isBlank = other.all isBlank) :
    Scans other (offset + distance) cs (found.map (·.move distance)) := by
  induction h generalizing other with
  | finish => exact .finish
  | @token previous offset c more rest kind tokens hlexeme _ ih =>
      have hrest := ih (some (lastOf c more)) rfl
      rw [Nat.add_right_comm] at hrest
      exact .token ((lexeme_of_previous hprevious).trans hlexeme) hrest

-- The induction goes along the tokens of the text before the break. None of them is a blank at its end,
-- so none goes on into the break.
theorem Scans.before_break (h : Scans previous offset cs found)
    (hlast : ∀ c, cs.getLast? = some c → isBlank c = false) (hbehind : headIs isBlank behind = false)
    (hlater : Scans (some '\n') (offset + byteLength cs + 1) behind later) :
    Scans previous offset (cs ++ '\n' :: behind)
      (found.filter (·.kind != .finish) ++ ⟨.blank, "\n", offset + byteLength cs⟩ :: later) := by
  induction h with
  | @finish previous offset =>
      have hbreak : lexeme previous '\n' ([] ++ behind) = ⟨.ok .blank, ([] : List Char).length⟩ := by
        rw [lexeme_of_blank (by decide)]
        exact congrArg (Lexeme.mk _) (classLength_append_iff.2 ⟨by simp, hbehind⟩)
      exact .token hbreak hlater
  | @token previous offset c more rest kind tokens hlexeme hrest ih =>
      have hopen : isBlank c = true → rest ≠ [] := by
        rintro hblank rfl
        rw [lexeme_of_blank hblank, Lexeme.mk.injEq] at hlexeme
        have hmore := (classLength_append_iff.1 hlexeme.2).1
        have hend := hlast (lastOf c more) (by simp [lastOf, List.getLast?_eq_some_getLast])
        rcases List.mem_cons.1 (lastOf_mem c more) with hmem | hmem
        · rw [hmem, hblank] at hend
          cases hend
        · rw [hmore _ hmem] at hend
          cases hend
      have hkept : (⟨kind, String.ofList (c :: more), offset⟩ :: tokens).filter (·.kind != .finish) =
          ⟨kind, String.ofList (c :: more), offset⟩ :: tokens.filter (·.kind != .finish) :=
        List.filter_cons_of_pos (by simpa using (lexed_of_lexeme hlexeme).ne_finish)
      have hlength : offset + byteLength (c :: more) + byteLength rest =
          offset + byteLength (c :: (more ++ rest)) := by
        rw [← List.cons_append, byteLength_append, Nat.add_assoc]
      rw [← hlength] at hlater ⊢
      have hinner := ih (fun d hd => hlast d (by simp [List.getLast?_cons, List.getLast?_append, hd]))
        hlater
      rw [hkept, List.cons_append, List.cons_append, List.append_assoc]
      exact .token (lexeme_before_break hlexeme hopen behind) hinner

-- A line break between two texts that are scanned without a flaw, with no blanks beside it, is a token
-- of its own between the tokens of the texts.
theorem tokens_line_break {first second : String} {tokens others : List Token}
    (hfirst : Scan.tokens first = .ok tokens) (hsecond : Scan.tokens second = .ok others)
    (hend : ∀ c, first.toList.getLast? = some c → isBlank c = false)
    (hstart : ∀ c, second.toList.head? = some c → isBlank c = false) :
    Scan.tokens (first ++ "\n" ++ second) = .ok (tokens.filter (·.kind != .finish) ++
      ⟨.blank, "\n", first.utf8ByteSize⟩ :: others.map (·.move (first.utf8ByteSize + 1))) := by
  rw [tokens_eq_ok_iff] at hfirst hsecond ⊢
  have hbehind : headIs isBlank second.toList = false := by
    cases hcs : second.toList with
    | nil => rfl
    | cons c cs => exact hstart c (by rw [hcs, List.head?_cons])
  have hlater := hsecond.move (some '\n') (first.utf8ByteSize + 1) rfl
  rw [← byteLength_toList] at hlater ⊢
  rw [Nat.zero_add, ← Nat.zero_add (byteLength first.toList)] at hlater
  have hwhole := hfirst.before_break hend hbehind hlater
  rw [Nat.zero_add] at hwhole
  simpa [String.toList_append] using hwhole

-- A time that might go on, a comment to the end of its line, and a comment that needs a line's start.
theorem tokens_line_break_comments : ∃ tokens others : List Token,
    Scan.tokens "é=-7d@d//x // y" = .ok tokens ∧ Scan.tokens "//z\n0e5x" = .ok others ∧
    tokens.length = 9 ∧ others.length = 5 ∧
    Scan.tokens ("é=-7d@d//x // y" ++ "\n" ++ "//z\n0e5x") =
      .ok (tokens.filter (·.kind != .finish) ++ ⟨.blank, "\n", 16⟩ :: others.map (·.move 17)) := by
  have hfirst : ∃ tokens, Scan.tokens "é=-7d@d//x // y" = .ok tokens ∧ tokens.length = 9 := by
    refine ⟨_, rfl, ?_⟩
    decide +kernel
  have hsecond : ∃ others, Scan.tokens "//z\n0e5x" = .ok others ∧ others.length = 5 := by
    refine ⟨_, rfl, ?_⟩
    decide +kernel
  obtain ⟨tokens, htokens, hlength⟩ := hfirst
  obtain ⟨others, hothers, hlength'⟩ := hsecond
  have hend : "é=-7d@d//x // y".toList.getLast? = some 'y' := by decide +kernel
  have hstart : "//z\n0e5x".toList.head? = some '/' := by decide +kernel
  refine ⟨tokens, others, htokens, hothers, hlength, hlength', ?_⟩
  refine tokens_line_break htokens hothers (fun c hc => ?_) fun c hc => ?_
  · obtain rfl := Option.some.inj (hend.symm.trans hc)
    decide
  · obtain rfl := Option.some.inj (hstart.symm.trans hc)
    decide

end Scan

end SearchPipeline
