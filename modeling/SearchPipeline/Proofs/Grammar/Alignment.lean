import SearchPipeline.Proofs.Grammar.CarriedPipeline
import SearchPipeline.Proofs.Token.Renumbering

namespace SearchPipeline.Grammar

open Scan (Solid solids)

def Mark.solid (mark : Mark) : Solid := ⟨mark.kind, mark.text, mark.index⟩

namespace Tape

theorem solids_eq_filter (offset : Nat) (tokens : List Token) : solids offset tokens =
    ((tokens.zipIdx offset).filter (!·.1.isTrivia)).map fun entry =>
      ⟨entry.1.kind, entry.1.text, entry.2⟩ := by
  induction tokens generalizing offset with
  | nil => rfl
  | cons token rest ih =>
      simp only [solids, List.zipIdx_cons, List.filter_cons, ih]
      cases token.isTrivia <;> rfl

theorem mem_solids_iff {tokens : List Token} {solid : Solid} : solid ∈ solids 0 tokens ↔
    ∃ token, tokens[solid.index]? = some token ∧ token.isTrivia = false ∧
      solid = ⟨token.kind, token.text, solid.index⟩ := by
  simp only [solids_eq_filter, List.mem_map, List.mem_filter, Prod.exists,
    List.mem_zipIdx_iff_getElem?, Bool.not_eq_true']
  constructor
  · rintro ⟨token, index, ⟨hget, htrivia⟩, rfl⟩
    exact ⟨token, hget, htrivia, rfl⟩
  · rintro ⟨token, hget, htrivia, hsolid⟩
    exact ⟨token, solid.index, ⟨hget, htrivia⟩, hsolid.symm⟩

theorem marksOf_solids (tokens : List Token) :
    (marksOf tokens).map Mark.solid = solids 0 tokens := by
  rw [solids_eq_filter, marksOf, List.map_map]
  rfl

-- A list of tokens with the end as the last one.
def Ended (tokens : List Token) : Prop := tokens.getLast?.map (·.kind) = some .finish

theorem ended_of_scan {source : String} {tokens : List Token} (h : Scan.tokens source = .ok tokens) :
    Ended tokens := by
  obtain ⟨before, last, rfl, hlast, -⟩ := (Scan.tokens_eq_ok_iff.1 h).ends
  simp [Ended, hlast]

section

variable (source : String) {tokens : List Token} (hended : Ended tokens)

include hended

theorem marks_of_ended : (ofTokens source tokens).marks = (marksOf tokens).toArray := by
  obtain ⟨last, hlast, hkind⟩ := Option.map_eq_some_iff.1 hended
  obtain ⟨before, rfl⟩ := List.getLast?_eq_some_iff.1 hlast
  exact marks_of_concat source before hkind

theorem size_eq_solids : (ofTokens source tokens).size = (solids 0 tokens).length := by
  rw [size, marks_of_ended source hended, ← marksOf_solids, List.length_map, List.size_toArray]

-- What stands on the tape, and behind it the end.
theorem solid_mark (pos : Nat) : ((ofTokens source tokens).mark pos).solid =
    (solids 0 tokens)[pos]?.getD ⟨.finish, "", tokens.length⟩ := by
  have hfinal : (ofTokens source tokens).final.solid = ⟨.finish, "", tokens.length⟩ := by
    unfold ofTokens
    simp only
    split <;> rfl
  rw [mark, marks_of_ended source hended, List.getElem?_toArray, ← marksOf_solids,
    List.getElem?_map, ← hfinal]
  cases (marksOf tokens)[pos]? <;> rfl

theorem solid_mem {pos : Nat} (h : pos < (ofTokens source tokens).size) :
    ((ofTokens source tokens).mark pos).solid ∈ solids 0 tokens := by
  rw [size_eq_solids source hended] at h
  rw [solid_mark source hended, List.getElem?_eq_getElem h, Option.getD_some]
  exact List.getElem_mem h

end

end Tape

-- How indices are carried over to tokens of which the first are gone and the end is nearer.
def Carry.nearer (newText : Nat → String → String) (lead eof end' : Nat)
    (h : eof ≤ end' + lead + 1) : Carry where
  index := Scan.renumber lead eof end'
  text name := newText name.span.start name.text
  mono a b hab := by
    unfold Scan.renumber
    split <;> split <;> omega

-- The significant tokens of one list, as they stand in another: the first tokens are gone, none of
-- them significant, and only words have other texts.
structure Aligned (newText : Nat → String → String) (lead eof end' : Nat)
    (tokens others : List Token) : Prop where
  ended : Tape.Ended tokens
  others_ended : Tape.Ended others
  length : tokens.length = eof + 1
  others_length : others.length = end' + 1
  near : eof ≤ end' + lead + 1
  solids : Scan.solids 0 others =
    (Scan.solids 0 tokens).map fun solid => (solid.respell newText).renumber lead eof end'
  within : ∀ solid ∈ Scan.solids 0 tokens,
    lead ≤ solid.index ∧ (solid.kind ≠ .finish → solid.index < eof)
  words : ∀ solid ∈ Scan.solids 0 tokens, solid.kind ≠ .word →
    newText solid.index solid.text = solid.text
  behind : newText (eof + 1) "" = ""

namespace Aligned

variable {newText : Nat → String → String} {lead eof end' : Nat} {tokens others : List Token}

def carry (h : Aligned newText lead eof end' tokens others) : Carry :=
  .nearer newText lead eof end' h.near

-- The mark at a position of the other tape.
theorem solid_mark (h : Aligned newText lead eof end' tokens others) (source source' : String)
    (pos : Nat) : ((Tape.ofTokens source' others).mark pos).solid =
      (((Tape.ofTokens source tokens).mark pos).solid.respell newText).renumber lead eof end' := by
  rw [Tape.solid_mark source' h.others_ended, Tape.solid_mark source h.ended, h.solids,
    List.getElem?_map]
  cases (Scan.solids 0 tokens)[pos]? with
  | some solid => rfl
  | none =>
      have hend : Scan.renumber lead eof end' (eof + 1) = end' + 1 := by
        rw [Scan.renumber, if_neg (by omega)]
        omega
      simp [h.length, h.others_length, Solid.respell, Solid.renumber, h.behind, hend]

-- Neighbours stay neighbours.
theorem step_iff (h : Aligned newText lead eof end' tokens others) (source : String) {a b : Nat}
    (hab : a < b) (hb : (Tape.ofTokens source tokens).kind b ≠ .finish) :
    h.carry.index ((Tape.ofTokens source tokens).index b) =
        h.carry.index ((Tape.ofTokens source tokens).index a) + 1 ↔
      (Tape.ofTokens source tokens).index b = (Tape.ofTokens source tokens).index a + 1 := by
  have hot := Tape.ofTokens_orderly source tokens
  have hsize := Nat.lt_of_succ_lt (hot.ends b hb)
  have hlt := hot.rises a b hab hsize
  have hlater : (Tape.ofTokens source tokens).index b < eof :=
    (h.within _ (Tape.solid_mem source h.ended hsize)).2 hb
  have hearlier : lead ≤ (Tape.ofTokens source tokens).index a :=
    (h.within _ (Tape.solid_mem source h.ended (Nat.lt_trans hab hsize))).1
  change Scan.renumber lead eof end' _ = Scan.renumber lead eof end' _ + 1 ↔ _
  rw [Scan.renumber, if_pos hlater, Scan.renumber, if_pos (Nat.lt_trans hlt hlater)]
  omega

theorem carries (h : Aligned newText lead eof end' tokens others) (source source' : String) :
    (Tape.ofTokens source tokens).CarriesWhole h.carry (Tape.ofTokens source' others) := by
  have hmark := h.solid_mark source source'
  have hkind : ∀ pos, (Tape.ofTokens source' others).kind pos =
      (Tape.ofTokens source tokens).kind pos := fun pos => congrArg Solid.kind (hmark pos)
  have hindex : ∀ pos, (Tape.ofTokens source' others).index pos =
      h.carry.index ((Tape.ofTokens source tokens).index pos) :=
    fun pos => congrArg Solid.index (hmark pos)
  have htext : ∀ pos, ((Tape.ofTokens source' others).mark pos).text =
      newText ((Tape.ofTokens source tokens).index pos)
        ((Tape.ofTokens source tokens).mark pos).text := fun pos => congrArg Solid.text (hmark pos)
  have hsize : (Tape.ofTokens source' others).size = (Tape.ofTokens source tokens).size := by
    rw [Tape.size_eq_solids source' h.others_ended, Tape.size_eq_solids source h.ended, h.solids,
      List.length_map]
  have hot := Tape.ofTokens_orderly source tokens
  refine ⟨⟨hot, Tape.ofTokens_orderly source' others, Nat.le_of_eq hsize.symm,
    fun pos _ => .inl (hkind pos), fun pos _ => hindex pos, fun pos _ _ => htext pos, ?_, ?_, ?_⟩,
    rfl, rfl, hsize, hkind⟩
  · intro pos hword hfinish
    have hpos := Nat.lt_of_succ_lt (hot.ends pos hfinish)
    exact (htext pos).trans (h.words _ (Tape.solid_mem source h.ended hpos) hword)
  · intro pos hstar
    change (Tape.ofTokens source' others).attachedLeft pos = Tape.attachedLeft _ pos
    have hstar : (Tape.ofTokens source tokens).kind pos = .star := hstar
    simp only [Tape.attachedLeft, hindex]
    by_cases hpos : 0 < pos
    · have hstep := h.step_iff source (show pos - 1 < pos by omega) (by simp [hstar])
      simp only [hpos, decide_true, Bool.true_and]
      exact Bool.eq_iff_iff.2 (by simpa using hstep)
    · simp [hpos]
  · intro pos _
    change (Tape.ofTokens source' others).attachedRight pos = Tape.attachedRight _ pos
    simp only [Tape.attachedRight, hindex, hkind]
    by_cases hnext : (Tape.ofTokens source tokens).kind (pos + 1) = .finish
    · simp [hnext]
    · have hstep := h.step_iff source (Nat.lt_succ_self pos) hnext
      exact congrArg (· && _) (Bool.eq_iff_iff.2 (by simpa using hstep))

end Aligned

end SearchPipeline.Grammar

namespace SearchPipeline

-- A text of blanks has no significant token besides its end.
theorem Scan.length_solids_of_blank {text : String} {tokens : List Token}
    (hscan : Scan.tokens text = .ok tokens) (hblank : Text.isBlankText text = true) :
    (Scan.solids 0 tokens).length = 1 := by
  rw [Text.isBlankText, List.all_eq_true] at hblank
  have htrims := (Scan.tokens_eq_ok_iff.1 hscan).trims_of_blank hblank 0
  have hpos := htrims.length_pos
  have hsolids := congrArg List.length
    (htrims.solids_eq 0 0 (tokens.length - 1) 0 (by omega) rfl)
  rw [List.length_map, Nat.add_zero] at hsolids
  exact hsolids.symm

theorem Query.parse_of_scan {text : String} {tokens : List Token}
    (hscan : Scan.tokens text = .ok tokens) : Query.parse text =
      if Text.isBlankText text then .error [.emptyQuery]
      else (Grammar.pipeline text tokens).map fun pipeline => ⟨text, tokens, pipeline⟩ := by
  simp only [Query.parse, Scan.tokensOrErrors, hscan, Except.mapError, bind, Except.bind]
  split
  · rfl
  · cases Grammar.pipeline text tokens <;> rfl

-- So a text with another significant token is read if its tokens form a pipeline.
theorem Query.parse_of_tokens {text : String} {tokens : List Token} {pipeline : Pipeline}
    (hscan : Scan.tokens text = .ok tokens) (hsome : 1 < (Scan.solids 0 tokens).length)
    (hpipeline : Grammar.pipeline text tokens = .ok pipeline) :
    Query.parse text = .ok ⟨text, tokens, pipeline⟩ := by
  have hblank : ¬ Text.isBlankText text = true := by
    intro hblank
    have := Scan.length_solids_of_blank hscan hblank
    omega
  rw [parse_of_scan hscan, if_neg hblank, hpipeline]
  rfl

end SearchPipeline
