import SearchPipeline.Proofs.Token.Trimming

namespace SearchPipeline.Scan

-- A token that is neither blank nor comment, with its index among all tokens.
structure Solid where
  kind : Kind
  text : String
  index : Nat
deriving DecidableEq, Repr

def solids (offset : Nat) : List Token → List Solid
  | [] => []
  | token :: rest =>
      if token.isTrivia then solids (offset + 1) rest
      else ⟨token.kind, token.text, offset⟩ :: solids (offset + 1) rest

variable {tokens others : List Token} {solid : Solid} {offset : Nat}

theorem solids_append (offset : Nat) (tokens others : List Token) :
    solids offset (tokens ++ others) =
      solids offset tokens ++ solids (offset + tokens.length) others := by
  induction tokens generalizing offset with
  | nil => rfl
  | cons token rest ih =>
      have hlength : offset + 1 + rest.length = offset + (token :: rest).length := by
        simp only [List.length_cons]
        omega
      simp only [List.cons_append, solids, ih, hlength]
      split <;> rfl

theorem solids_shown (offset : Nat) (tokens : List Token) :
    (solids offset tokens).map (fun solid => (solid.kind, solid.text)) =
      (tokens.filter (!·.isTrivia)).map fun token => (token.kind, token.text) := by
  induction tokens generalizing offset with
  | nil => rfl
  | cons token rest ih =>
      have hrest := ih (offset + 1)
      by_cases htrivia : token.isTrivia = true
      · simpa [solids, htrivia] using hrest
      · simpa [solids, htrivia] using hrest

theorem mem_solids (h : solid ∈ solids offset tokens) :
    offset ≤ solid.index ∧ solid.index < offset + tokens.length := by
  induction tokens generalizing offset with
  | nil => cases h
  | cons token rest ih =>
      simp only [List.length_cons]
      simp only [solids] at h
      split at h
      · have hrest := ih h
        omega
      · rcases List.mem_cons.1 h with rfl | h
        · exact ⟨Nat.le_refl offset, Nat.lt_add_of_pos_right (Nat.succ_pos _)⟩
        · have hrest := ih h
          omega

theorem solids_leadingBlank (offset : Nat) (tokens : List Token) :
    solids offset (leadingBlank tokens) = [] := by
  cases tokens with
  | nil => rfl
  | cons token rest =>
      by_cases hblank : token.kind = .blank
      · have htrivia : token.isTrivia = true := by
          rw [Token.isTrivia, hblank]
          rfl
        simp [leadingBlank, hblank, solids, htrivia]
      · simp [leadingBlank, hblank, solids]

theorem leadingBlank_append_drop (tokens : List Token) :
    leadingBlank tokens ++ tokens.drop (leadingBlank tokens).length = tokens := by
  cases tokens with
  | nil => rfl
  | cons token rest => by_cases hblank : token.kind = .blank <;> simp [leadingBlank, hblank]

-- Every token with the text that a function of its index and its own text gives.
def editsBy (newText : Nat → String → String) (offset : Nat) (tokens : List Token) : List Edit :=
  (tokens.zipIdx offset).map fun entry => ⟨entry.1, (newText entry.2 entry.1.text).toList⟩

theorem editsBy_tokens (newText : Nat → String → String) (offset : Nat) (tokens : List Token) :
    (editsBy newText offset tokens).map (·.token) = tokens := by
  rw [editsBy, List.map_map]
  exact List.zipIdx_map_fst offset tokens

def Solid.respell (newText : Nat → String → String) (solid : Solid) : Solid :=
  ⟨solid.kind, newText solid.index solid.text, solid.index⟩

theorem length_respelled (start : Nat) (edits : List Edit) :
    (respelled start edits).length = edits.length + 1 := by
  induction edits generalizing start with
  | nil => rfl
  | cons edit edits ih => rw [respelled, List.length_cons, ih, List.length_cons]

theorem solids_respelled (newText : Nat → String → String) (offset start : Nat)
    (tokens : List Token) : solids offset (respelled start (editsBy newText offset tokens)) =
      (solids offset tokens).map (·.respell newText) ++
        [⟨.finish, "", offset + tokens.length⟩] := by
  induction tokens generalizing offset start with
  | nil => rfl
  | cons token rest ih =>
      have hlength : offset + 1 + rest.length = offset + (token :: rest).length := by
        simp only [List.length_cons]
        omega
      have hsame : ∀ text, (⟨token.kind, text, start⟩ : Token).isTrivia = token.isTrivia :=
        fun _ => rfl
      have hrest := ih (offset + 1)
      simp only [editsBy, List.zipIdx_cons, List.map_cons, respelled, solids, hsame] at hrest ⊢
      rw [hrest, hlength, String.ofList_toList]
      split <;> rfl

theorem leadingBlank_respelled (newText : Nat → String → String) (start : Nat)
    {last : Token} (hlast : last.kind = .finish) :
    (leadingBlank (respelled start (editsBy newText 0 tokens))).length =
      (leadingBlank (tokens ++ [last])).length := by
  cases tokens with
  | nil => simp [leadingBlank, editsBy, respelled, hlast]
  | cons token rest =>
      by_cases hblank : token.kind = .blank <;>
        simp [leadingBlank, editsBy, List.zipIdx_cons, respelled, hblank]

-- Where a token goes when the first tokens are gone and the end, with what stands behind it, comes
-- nearer.
def renumber (lead eof end' index : Nat) : Nat :=
  if index < eof then index - lead else index - eof + end'

def Solid.renumber (lead eof end' : Nat) (solid : Solid) : Solid :=
  ⟨solid.kind, solid.text, Scan.renumber lead eof end' solid.index⟩

namespace Trims

theorem length_le (h : Trims tokens others) : tokens.length ≤ others.length + 1 := by
  induction h with
  | finish => simp
  | blank => simp
  | same _ _ _ ih =>
      simp only [List.length_cons]
      omega

theorem length_pos (h : Trims tokens others) : 0 < tokens.length := by
  cases h <;> simp

-- The induction goes along the trimmed tokens; all but the end move by the same distance.
theorem solids_eq (h : Trims tokens others) (lead offset eof end' : Nat)
    (heof : offset + lead + tokens.length = eof + 1)
    (hend : offset + others.length = end' + 1) :
    solids offset others = (solids (offset + lead) tokens).map (·.renumber lead eof end') := by
  induction h generalizing offset with
  | finish =>
      simp only [List.length_singleton] at heof hend
      have hindex : renumber lead eof end' (offset + lead) = offset := by
        rw [renumber, if_neg (by omega)]
        omega
      simp [solids, Token.isTrivia, Kind.isTrivia, Solid.renumber, hindex]
  | blank =>
      simp only [List.length_cons, List.length_nil] at heof hend
      have hindex : renumber lead eof end' (offset + lead + 1) = offset := by
        rw [renumber, if_neg (by omega)]
        omega
      simp [solids, Token.isTrivia, Kind.isTrivia, Solid.renumber, hindex]
  | @same token other tokens others hkind htext hrest ih =>
      simp only [List.length_cons] at heof hend
      have hpos := hrest.length_pos
      have hindex : renumber lead eof end' (offset + lead) = offset := by
        rw [renumber, if_pos (by omega)]
        omega
      have hnext : offset + 1 + lead = offset + lead + 1 := by omega
      have hlater := ih (offset + 1) (by omega) (by omega)
      rw [hnext] at hlater
      have htrivia : other.isTrivia = token.isTrivia := by rw [Token.isTrivia, hkind, Token.isTrivia]
      simp only [solids, htrivia, hlater]
      split
      · rfl
      · next hsolid =>
        simp only [List.map_cons, Solid.renumber, hindex, hkind,
          htext (Bool.eq_false_iff.2 hsolid)]

end Trims

-- The new text is scanned as the old one, and its significant tokens are the old ones with their new
-- texts.
theorem Scans.renumber {previous : Option Char} {start : Nat} {cs : List Char} {found : List Token}
    {before : List Token} {last : Token} {newText : Nat → String → String}
    (h : Scans previous start cs found) (hfound : found = before ++ [last])
    (hlast : last.kind = .finish) (hprevious : previous.all Text.isBlank = true)
    (hedits : Edits (editsBy newText 0 before)) (hend : newText before.length "" = "") :
    ∃ trimmed, Scans none 0 (Text.trim ((editsBy newText 0 before).flatMap (·.text))) trimmed ∧
      0 < trimmed.length ∧ before.length ≤ trimmed.length - 1 + (leadingBlank found).length + 1 ∧
      solids 0 trimmed = (solids 0 found).map fun solid => (solid.respell newText).renumber
        (leadingBlank found).length before.length (trimmed.length - 1) := by
  have htokens : found = (editsBy newText 0 before).map (·.token) ++ [last] := by
    rw [editsBy_tokens, hfound]
  have hsame : previous.all Text.isBlank = (none : Option Char).all Text.isBlank := hprevious
  obtain ⟨hrespelled, -⟩ := h.respell htokens hedits 0 hsame
  obtain ⟨kept, trimmed, hkept, hscans, htrims⟩ := hrespelled.trim
  have hlead : (leadingBlank (respelled 0 (editsBy newText 0 before))).length =
      (leadingBlank found).length := by
    rw [leadingBlank_respelled newText 0 hlast, hfound]
  -- the lengths of the old tokens, of those that are kept and of the new ones
  have hlength : before.length + 1 = (leadingBlank found).length + kept.length := by
    have htotal := congrArg List.length hkept
    rwa [length_respelled, List.length_append, hlead, editsBy, List.length_map,
      List.length_zipIdx] at htotal
  have hle := htrims.length_le
  have hpos : 0 < trimmed.length := List.length_pos_iff.2 hscans.ne_nil
  refine ⟨trimmed, hscans, hpos, by omega, ?_⟩
  have htext : last.text = "" := h.text_of_finish (by simp [hfound]) hlast
  have hold : solids 0 (respelled 0 (editsBy newText 0 before)) =
      (solids 0 found).map (·.respell newText) := by
    have hsolid : last.isTrivia = false := by
      rw [Token.isTrivia, hlast]
      rfl
    rw [solids_respelled, hfound, solids_append, List.map_append]
    simp [solids, hsolid, Solid.respell, htext, hlast, hend]
  rw [hkept, solids_append, solids_leadingBlank, List.nil_append, hlead] at hold
  rw [htrims.solids_eq (leadingBlank found).length 0 before.length (trimmed.length - 1) (by omega)
    (by omega), hold, List.map_map]
  rfl

end SearchPipeline.Scan
