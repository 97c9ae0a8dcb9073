import SearchPipeline.Proofs.Text.Trim
import SearchPipeline.Proofs.Token.Respelling

namespace SearchPipeline

namespace Scan

open Text

-- What trimming does to the tokens: a blank before the end is gone, and of blanks and comments only
-- the kind is sure to stay.
inductive Trims : List Token → List Token → Prop where
  | finish {a b : Nat} : Trims [⟨.finish, "", a⟩] [⟨.finish, "", b⟩]
  | blank {text : String} {a b d : Nat} :
      Trims [⟨.blank, text, a⟩, ⟨.finish, "", b⟩] [⟨.finish, "", d⟩]
  | same {token other : Token} {tokens others : List Token} : other.kind = token.kind →
      (token.isTrivia = false → other.text = token.text) → Trims tokens others →
      Trims (token :: tokens) (other :: others)

variable {previous other : Option Char} {offset : Nat} {c : Char} {cs more rest body tail : List Char}
  {kind : Kind} {found : List Token}

-- A text that goes on with a blank agrees with the text that ends there.
theorem Tight.of_blank {p : Char} (htail : tail = [] ∨ headIs isBlank tail = true)
    (body : List Char) : Tight p (body ++ tail) body := by
  induction body generalizing p with
  | nil => exact .ended htail
  | cons c body ih => exact .same ih

theorem Tight.trimmed {p : Char} (htail : ∀ c ∈ tail, isBlank c = true) (body : List Char) :
    Tight p (body ++ tail) body := by
  refine Tight.of_blank ?_ body
  cases tail with
  | nil => exact .inl rfl
  | cons c tail => exact .inr (htail c List.mem_cons_self)

theorem lexeme_of_blank (h : isBlank c = true) :
    lexeme previous c cs = ⟨.ok .blank, classLength isBlank cs⟩ := by
  simp [lexeme, h]

-- A text of blanks is one token or none.
theorem Scans.trims_of_blank (h : Scans previous offset cs found)
    (hblank : ∀ c ∈ cs, isBlank c = true) (start : Nat) :
    Trims found [⟨.finish, "", start⟩] := by
  cases h with
  | finish => exact .finish
  | @token _ _ c more rest kind tokens hlexeme hrest =>
      rw [lexeme_of_blank (hblank c List.mem_cons_self), Lexeme.mk.injEq] at hlexeme
      obtain ⟨hkind, hlength⟩ := hlexeme
      have hstop := (classLength_append_iff.1 hlength).2
      cases hkind
      cases rest with
      | nil =>
          cases hrest
          exact .blank
      | cons d rest =>
          have hd : isBlank d = true := hblank d (by simp)
          rw [headIs, hd] at hstop
          cases hstop

-- A comment that ends with a blank has no closing mark: it runs to the end of its line.
theorem line_of_comment (h : comment? previous c (more ++ rest) = some ⟨.ok kind, more.length⟩)
    (hend : isBlank (lastOf c more) = true) :
    kind = .comment ∧ c = '/' ∧ headIs (· == '/') (more ++ rest) = true ∧
      previous.all isBlank = true ∧ ∀ d ∈ more, (d != '\n') = true := by
  unfold comment? at h
  split at h
  · obtain ⟨-, -, inner, hinner⟩ := blockComment_append [] (Option.some.inj h)
    rw [hinner, lastOf_append c inner (show ticks ≠ [] by decide)] at hend
    exact absurd hend (by decide)
  split at h
  · obtain ⟨-, -, inner, hinner⟩ := blockComment_append [] (Option.some.inj h)
    rw [hinner, lastOf_append c inner (show ['*', '/'] ≠ [] by decide)] at hend
    exact absurd hend (by decide)
  split at h
  · next hline =>
    obtain ⟨hkind, hlength⟩ := Lexeme.mk.inj (Option.some.inj h)
    exact ⟨(Except.ok.inj hkind).symm, hline.1, hline.2.1, hline.2.2,
      (classLength_append_iff.1 hlength).1⟩
  · cases h

-- Without a line break behind its mark, a line comment is the rest of the text.
theorem lexeme_of_line (hstart : previous.all isBlank = true)
    (hmore : ∀ d ∈ '/' :: more, (d != '\n') = true) :
    lexeme previous '/' ('/' :: more) = ⟨.ok .comment, ('/' :: more).length⟩ := by
  have hlength : classLength (· != '\n') (('/' :: more) ++ []) = ('/' :: more).length :=
    classLength_append_iff.2 ⟨hmore, rfl⟩
  rw [List.append_nil] at hlength
  have hcomment : comment? previous '/' ('/' :: more) =
      some ⟨.ok .comment, classLength (· != '\n') ('/' :: more)⟩ := by
    simp [comment?, ticks, List.isPrefixOf, headIs, hstart]
  rw [lexeme_of_comment (by decide) hcomment, hlength]

-- A token that begins before the cut and ends behind it is a comment that runs to the end of its
-- line; it is cut short.
theorem comment_of_cut (h : lexeme previous c (body ++ cs ++ rest) =
    ⟨.ok kind, (body ++ cs).length⟩) (hne : cs ≠ []) (hcs : ∀ c ∈ cs, isBlank c = true)
    (hrest : ∀ c ∈ rest, isBlank c = true) (hlast : isBlank (lastOf c body) = false)
    (hprevious : previous.all isBlank = other.all isBlank) :
    kind = .comment ∧ lexeme other c body = ⟨.ok .comment, body.length⟩ := by
  have hend : isBlank (lastOf c (body ++ cs)) = true := by
    rw [lastOf_append c body hne]
    exact hcs _ (List.getLast_mem hne)
  have hblank : isBlank c = false := by
    by_contra hblank
    rw [Bool.not_eq_false] at hblank
    rw [lexeme_of_blank hblank, Lexeme.mk.injEq] at h
    have hall := (classLength_append_iff.1 h.2).1
    have hbody : isBlank (lastOf c body) = true := by
      rcases List.mem_cons.1 (lastOf_mem c body) with hmem | hmem
      · rwa [hmem]
      · exact hall _ (List.mem_append_left _ hmem)
    rw [hbody] at hlast
    cases hlast
  have htight : Tight c (body ++ cs ++ rest) body := by
    rw [List.append_assoc]
    refine Tight.trimmed ?_ body
    intro d hd
    exact (List.mem_append.1 hd).elim (hcs d) (hrest d)
  cases hcomment : comment? previous c (body ++ cs ++ rest) with
  | none =>
      cases hquoted : quoted? c (body ++ cs ++ rest) with
      | none =>
          have hsame := htight.lexeme_eq hprevious hblank hcomment hquoted
          rw [h] at hsame
          have hle := (lexed_of_lexeme hsame).le_length
          have hpos := List.length_pos_iff.2 hne
          rw [List.length_append] at hle
          omega
      | some quoted =>
          rw [← lexeme_of_quoted hblank hcomment hquoted, h] at hquoted
          obtain ⟨-, inner, hinner⟩ := quoted?_append [] hquoted
          rw [hinner, lastOf_append c inner (List.cons_ne_nil c []), List.getLast_singleton,
            hblank] at hend
          cases hend
  | some comment =>
      rw [← lexeme_of_comment hblank hcomment, h] at hcomment
      obtain ⟨rfl, rfl, hhead, hstart, hall⟩ := line_of_comment hcomment hend
      refine ⟨rfl, ?_⟩
      -- the mark itself is not cut, since it is not blank
      cases body with
      | nil =>
          obtain ⟨d, ds, rfl⟩ := List.exists_cons_of_ne_nil hne
          have hd : d = '/' := by simpa [headIs] using hhead
          have hslash := hcs d List.mem_cons_self
          rw [hd] at hslash
          exact absurd hslash (by decide)
      | cons d body =>
          have hd : d = '/' := by simpa [headIs] using hhead
          rw [hd] at hall ⊢
          exact lexeme_of_line (by rw [← hprevious, hstart])
            fun d hd => hall d (List.mem_append_left _ hd)

-- The induction goes along the tokens up to the cut.
theorem Scans.trimEnd (h : Scans previous offset cs found) (hcs : cs = body ++ tail)
    (htail : ∀ c ∈ tail, isBlank c = true) (hlast : ∀ h, isBlank (body.getLast h) = false)
    (start : Nat) (hprevious : previous.all isBlank = other.all isBlank) :
    ∃ trimmed, Scans other start body trimmed ∧ Trims found trimmed := by
  induction h generalizing body other start with
  | finish =>
      obtain ⟨rfl, rfl⟩ := List.append_eq_nil_iff.1 hcs.symm
      exact ⟨_, .finish, .finish⟩
  | @token previous offset c more rest kind tokens hlexeme hrest ih =>
      cases body with
      | nil =>
          have hblank : ∀ d ∈ c :: (more ++ rest), isBlank d = true := by rwa [hcs]
          exact ⟨_, .finish, (Scans.token hlexeme hrest).trims_of_blank hblank start⟩
      | cons d body =>
          obtain ⟨rfl, hsplit⟩ := List.cons.inj hcs
          -- behind the token, or where it ends
          have hbehind : ∀ inner, body = more ++ inner → rest = inner ++ tail →
              ∃ trimmed, Scans other start (c :: body) trimmed ∧
                Trims (⟨kind, String.ofList (c :: more), offset⟩ :: tokens) trimmed := by
            intro inner hbody hinner
            have hend : ∀ h, isBlank (inner.getLast h) = false := by
              intro h
              have := hlast (List.cons_ne_nil c body)
              simp only [hbody] at this
              rwa [List.getLast_cons (by simp [h]), List.getLast_append_of_ne_nil _ h] at this
            have hcontext : (some (lastOf c more)).all isBlank =
                (some (lastOf c more)).all isBlank := rfl
            obtain ⟨trimmed, hscans, htrims⟩ :=
              ih hinner hend (start + byteLength (c :: more)) hcontext
            have htight : Tight c (more ++ rest) (more ++ inner) := by
              rw [hinner]
              exact Tight.append (Tight.trimmed htail inner)
            have hloose : Loose rest inner := by
              rw [hinner]
              exact (Tight.trimmed (p := c) htail inner).loose
            rw [hbody]
            exact ⟨_, .token (lexeme_append hlexeme htight hloose hprevious) hscans,
              .same rfl (fun _ => rfl) htrims⟩
          rcases List.append_eq_append_iff.1 hsplit with ⟨inner, hbody, hinner⟩ | ⟨cut, hmore, hcut⟩
          · exact hbehind inner hbody hinner
          · by_cases hnone : cut = []
            · subst hnone
              exact hbehind [] (by simpa using hmore.symm) (by simpa using hcut.symm)
            · subst hmore hcut
              have hblank : ∀ d ∈ rest, isBlank d = true :=
                fun d hd => htail d (List.mem_append_right _ hd)
              obtain ⟨rfl, hcomment⟩ := comment_of_cut hlexeme hnone
                (fun d hd => htail d (List.mem_append_left _ hd)) hblank
                (hlast (List.cons_ne_nil c body)) hprevious
              rw [← List.append_nil body] at hcomment ⊢
              refine ⟨_, .token (by rwa [List.append_nil] at hcomment ⊢) .finish, ?_⟩
              refine .same rfl ?_ (hrest.trims_of_blank hblank _)
              intro htrivia
              cases htrivia

theorem Lexed.isBlank_of_blank {count : Nat} (h : Lexed previous c cs kind count)
    (hkind : kind = .blank) : isBlank c = true := by
  cases h with
  | blank hblank => exact hblank
  | word _ =>
      have hmem := classify_mem (String.ofList (c :: cs.take (runLength extendsWord cs)))
      rw [hkind] at hmem
      exact absurd hmem (by decide)
  | pair hpair =>
      subst hkind
      simpa using (pairSymbol?_eq_some hpair).2
  | symbol hsymbol =>
      have hkinds : ∀ entry ∈ symbols, entry.2 ≠ .blank := by decide
      exact absurd hkind (hkinds _ (symbol?_mem hsymbol))
  | _ => cases hkind

-- The blank that a text begins with, if it does.
def leadingBlank (tokens : List Token) : List Token :=
  (tokens.take 1).filter (·.kind == .blank)

-- A blank at the start is the first token or there is none.
theorem Scans.trimStart (h : Scans none offset cs found) : ∃ kept previous later,
    found = leadingBlank found ++ kept ∧
      Scans previous later (Text.trimStart cs) kept ∧ previous.all isBlank = true := by
  by_cases hhead : headIs isBlank cs = true
  · cases h with
    | finish => cases hhead
    | @token _ _ c more rest kind tokens hlexeme hrest =>
        have hblank : isBlank c = true := hhead
        rw [lexeme_of_blank hblank, Lexeme.mk.injEq] at hlexeme
        obtain ⟨hkind, hlength⟩ := hlexeme
        obtain ⟨hall, hstop⟩ := classLength_append_iff.1 hlength
        have hlead : ∀ d ∈ c :: more, isBlank d = true := by
          intro d hd
          rcases List.mem_cons.1 hd with rfl | hd
          · exact hblank
          · exact hall d hd
        cases hkind
        refine ⟨tokens, some (lastOf c more), offset + byteLength (c :: more), rfl, ?_, ?_⟩
        · rw [← List.cons_append, trimStart_append hlead hstop]
          exact hrest
        · exact hlead _ (lastOf_mem c more)
  · rw [Bool.not_eq_true] at hhead
    have hnone : leadingBlank found = [] := by
      cases h with
      | finish => rfl
      | @token _ _ c more rest kind tokens hlexeme hrest =>
          have hkind : kind ≠ .blank := by
            intro hblank
            have hc := (lexed_of_lexeme hlexeme).isBlank_of_blank hblank
            rw [headIs, hc] at hhead
            cases hhead
          simp [leadingBlank, hkind]
    refine ⟨found, none, offset, by rw [hnone, List.nil_append], ?_, rfl⟩
    rwa [trimStart_of_head hhead]

theorem Scans.trim (h : Scans none offset cs found) : ∃ kept trimmed,
    found = leadingBlank found ++ kept ∧ Scans none 0 (Text.trim cs) trimmed ∧
      Trims kept trimmed := by
  obtain ⟨kept, previous, later, hfound, hscans, hprevious⟩ := h.trimStart
  obtain ⟨tail, hcs, htail, hlast⟩ := trimEnd_spec (Text.trimStart cs)
  have hstart : previous.all isBlank = (none : Option Char).all isBlank := by
    rw [hprevious]
    rfl
  obtain ⟨trimmed, htrimmed, htrims⟩ := hscans.trimEnd hcs htail hlast 0 hstart
  exact ⟨kept, trimmed, hfound, htrimmed, htrims⟩

end Scan

end SearchPipeline
