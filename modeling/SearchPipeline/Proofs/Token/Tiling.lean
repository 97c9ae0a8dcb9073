import SearchPipeline.Proofs.Token.Lexeme

namespace SearchPipeline.Scan

open Text

-- The tokens of what is left, behind the given character and from the given offset on.
inductive Scans : Option Char → Nat → List Char → List Token → Prop where
  | finish {previous : Option Char} {offset : Nat} :
      Scans previous offset [] [⟨.finish, "", offset⟩]
  | token {previous : Option Char} {offset : Nat} {c : Char} {more rest : List Char} {kind : Kind}
      {tokens : List Token} :
      lexeme previous c (more ++ rest) = ⟨.ok kind, more.length⟩ →
      Scans (some (lastOf c more)) (offset + byteLength (c :: more)) rest tokens →
      Scans previous offset (c :: (more ++ rest))
        (⟨kind, String.ofList (c :: more), offset⟩ :: tokens)

section Items

variable {found : List Item} {previous : Option Char} {offset skip : Nat} {c : Char}
  {cs : List Char} {tokens : List Token}

theorem itemsFrom_found (found : List Item) (skip : Nat) (previous : Option Char) (offset : Nat)
    (cs : List Char) : itemsFrom found skip previous offset cs =
      found.reverse ++ itemsFrom [] skip previous offset cs := by
  induction cs generalizing found skip previous offset with
  | nil => simp [itemsFrom]
  | cons c cs ih =>
      cases skip with
      | zero =>
          simp only [itemsFrom]
          rw [ih (_ :: found), ih [_]]
          simp
      | succ skip =>
          simp only [itemsFrom]
          exact ih found skip (some c) _

-- The characters of a token are passed over one by one.
theorem itemsFrom_skip (more rest : List Char) (c : Char) (offset : Nat) :
    itemsFrom [] more.length (some c) offset (more ++ rest) =
      itemsFrom [] 0 (some (lastOf c more)) (offset + byteLength more) rest := by
  induction more generalizing c offset with
  | nil => simp [lastOf, byteLength]
  | cons d more ih =>
      simp only [List.length_cons, List.cons_append, itemsFrom]
      rw [ih d]
      simp [lastOf, byteLength, Nat.add_assoc]

theorem itemsFrom_cons : itemsFrom [] 0 previous offset (c :: cs) =
    item offset c cs (lexeme previous c cs) ::
      itemsFrom [] (lexeme previous c cs).more (some c) (offset + c.utf8Size) cs := by
  simp only [itemsFrom]
  rw [itemsFrom_found]
  rfl

theorem item_eq_ok {lexeme : Lexeme} {token : Token} (h : item offset c cs lexeme = .ok token) :
    ∃ kind, lexeme.verdict = .ok kind ∧
      token = ⟨kind, String.ofList (c :: cs.take lexeme.more), offset⟩ := by
  unfold item at h
  split at h
  · next kind hkind => exact ⟨kind, hkind, (Except.ok.inj h).symm⟩
  · cases h

theorem scans_iff_itemsFrom : Scans previous offset cs tokens ↔
    itemsFrom [] 0 previous offset cs = tokens.map .ok := by
  constructor
  · intro h
    induction h with
    | finish => simp [itemsFrom]
    | @token previous offset c more rest kind tokens hlexeme _ ih =>
        rw [itemsFrom_cons, hlexeme, itemsFrom_skip, List.map_cons, ← ih]
        simp [item, byteLength, Nat.add_assoc]
  · intro h
    induction tokens generalizing previous offset cs with
    | nil =>
        cases cs with
        | nil => simp [itemsFrom] at h
        | cons c cs => simp [itemsFrom_cons] at h
    | cons token tokens ih =>
        cases cs with
        | nil =>
            simp only [itemsFrom, List.reverse_cons, List.reverse_nil, List.nil_append,
              List.map_cons, List.cons.injEq, Except.ok.injEq] at h
            obtain ⟨rfl, htokens⟩ := h
            cases List.map_eq_nil_iff.1 htokens.symm
            exact .finish
        | cons c cs =>
            rw [itemsFrom_cons, List.map_cons, List.cons.injEq] at h
            obtain ⟨hitem, hrest⟩ := h
            obtain ⟨kind, hverdict, rfl⟩ := item_eq_ok hitem
            have hlexeme : lexeme previous c cs = ⟨.ok kind, (lexeme previous c cs).more⟩ := by
              rw [← hverdict]
            have hle := (lexed_of_lexeme hlexeme).le_length
            generalize (lexeme previous c cs).more = count at *
            -- the text at hand is what the token takes and what is left of it
            obtain ⟨more, rest, rfl, rfl⟩ : ∃ more rest, cs = more ++ rest ∧ count = more.length :=
              ⟨cs.take count, cs.drop count, by simp, by simp [hle]⟩
            rw [itemsFrom_skip] at hrest
            simp only [List.take_left]
            refine .token hlexeme (ih ?_)
            simpa [byteLength, Nat.add_assoc] using hrest

end Items

theorem mistakes_eq_nil {found : List Item} (h : mistakes found = []) :
    (tokensOf found).map .ok = found := by
  induction found with
  | nil => rfl
  | cons first found ih =>
      cases first with
      | error mistake => simp [mistakes] at h
      | ok token =>
          have hrest : mistakes found = [] := by simpa [mistakes] using h
          simpa [tokensOf] using ih hrest

theorem tokensOf_ok (tokens : List Token) : tokensOf (tokens.map .ok) = tokens := by
  simp [tokensOf, List.filterMap_map]

theorem mistakes_ok (tokens : List Token) : mistakes (tokens.map .ok) = [] := by
  simp [mistakes, List.filterMap_map]

theorem tokens_eq_ok_iff {source : String} {found : List Token} :
    tokens source = .ok found ↔ Scans none 0 source.toList found := by
  rw [scans_iff_itemsFrom]
  change _ ↔ items source = _
  unfold tokens
  constructor
  · intro h
    simp only at h
    split at h
    · next hnone =>
      cases h
      exact (mistakes_eq_nil hnone).symm
    · cases h
  · intro h
    simp only [h, mistakes_ok, tokensOf_ok]

namespace Scans

variable {previous : Option Char} {offset : Nat} {cs : List Char} {found : List Token}

-- The end is the last token and no other.
theorem ends (h : Scans previous offset cs found) :
    ∃ before last, found = before ++ [last] ∧ last.kind = .finish ∧
      ∀ token ∈ before, token.kind ≠ .finish := by
  induction h with
  | finish => exact ⟨[], _, rfl, rfl, by simp⟩
  | token hlexeme _ ih =>
      obtain ⟨before, last, rfl, hlast, hbefore⟩ := ih
      refine ⟨_ :: before, last, rfl, hlast, ?_⟩
      rintro token (_ | ⟨_, hmem⟩)
      · exact (lexed_of_lexeme hlexeme).ne_finish
      · exact hbefore token hmem

-- The texts of the tokens, one behind the other, are the text.
theorem texts (h : Scans previous offset cs found) : found.flatMap (·.text.toList) = cs := by
  induction h with
  | finish => rfl
  | token _ _ ih => simp [ih]

-- Every token but the end is what the rules say about the text at its place.
theorem lexeme_of_mem (h : Scans previous offset cs found) {token : Token} (hmem : token ∈ found)
    (hkind : token.kind ≠ .finish) : ∃ before c more rest,
      lexeme before c (more ++ rest) = ⟨.ok token.kind, more.length⟩ ∧
        token.text = String.ofList (c :: more) := by
  induction h with
  | finish =>
      cases List.mem_singleton.1 hmem
      exact absurd rfl hkind
  | token hlexeme _ ih =>
      rcases List.mem_cons.1 hmem with rfl | hmem
      · exact ⟨_, _, _, _, hlexeme, rfl⟩
      · exact ih hmem

theorem text_of_finish (h : Scans previous offset cs found) {token : Token} (hmem : token ∈ found)
    (hkind : token.kind = .finish) : token.text = "" := by
  induction h with
  | finish =>
      cases List.mem_singleton.1 hmem
      rfl
  | token hlexeme _ ih =>
      rcases List.mem_cons.1 hmem with rfl | hmem
      · exact absurd hkind (lexed_of_lexeme hlexeme).ne_finish
      · exact ih hmem

end Scans

end SearchPipeline.Scan
