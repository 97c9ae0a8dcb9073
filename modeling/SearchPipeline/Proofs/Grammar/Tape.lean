import SearchPipeline.Grammar.Parse
import Mathlib.Data.List.Basic

namespace SearchPipeline.Grammar

namespace Tape

-- What the rules rely on: the end is the last mark, and the marks follow the order of the tokens.
structure Orderly (tape : Tape) : Prop where
  ends : ∀ pos, tape.kind pos ≠ .finish → pos + 1 < tape.size
  rises : ∀ a b, a < b → b < tape.size → tape.index a < tape.index b

theorem mark_of_lt {tape : Tape} {pos : Nat} (h : pos < tape.size) :
    tape.marks[pos]? = some (tape.mark pos) := by
  have hsize : pos < tape.marks.size := h
  simp [mark, hsize]

theorem mem_marksOf {tokens : List Token} {mark : Mark} :
    mark ∈ marksOf tokens ↔ ∃ token, tokens[mark.index]? = some token ∧
      token.isTrivia = false ∧ mark = ⟨token.kind, token.text, mark.index, token.start⟩ := by
  simp only [marksOf, List.mem_map, List.mem_filter, Prod.exists, List.mem_zipIdx_iff_getElem?,
    Bool.not_eq_true']
  constructor
  · rintro ⟨token, index, ⟨hget, htrivia⟩, rfl⟩
    exact ⟨token, hget, htrivia, rfl⟩
  · rintro ⟨token, hget, htrivia, hmark⟩
    exact ⟨token, mark.index, ⟨hget, htrivia⟩, hmark.symm⟩

theorem marksOf_texts (tokens : List Token) :
    (marksOf tokens).map (·.text) = (tokens.filter (!·.isTrivia)).map (·.text) := by
  have hfilter : tokens.filter (!·.isTrivia) =
      (tokens.zipIdx.filter (!·.1.isTrivia)).map Prod.fst := by
    conv_lhs => rw [← List.zipIdx_map_fst 0 tokens]
    rw [List.filter_map]
    rfl
  rw [hfilter, marksOf, List.map_map, List.map_map]
  rfl

theorem marksOf_rises (tokens : List Token) :
    (marksOf tokens).Pairwise fun a b => a.index < b.index := by
  have hindices : tokens.zipIdx.Pairwise fun a b => a.2 < b.2 := by
    rw [← List.pairwise_map (R := (· < ·)), List.zipIdx_map_snd]
    exact List.pairwise_lt_range'
  exact List.pairwise_map.2 (hindices.sublist List.filter_sublist)

theorem index_lt_length {tokens : List Token} {mark : Mark} (h : mark ∈ marksOf tokens) :
    mark.index < tokens.length := by
  obtain ⟨token, hget, -, -⟩ := mem_marksOf.1 h
  exact (List.getElem?_eq_some_iff.1 hget).1

-- The marks before one are the significant tokens before its own.
theorem length_significant_take {tokens : List Token} {token : Token} {offset index pos : Nat}
    (h : ((tokens.zipIdx offset).filter (!·.1.isTrivia))[pos]? = some (token, offset + index)) :
    ((tokens.take index).filter (!·.isTrivia)).length = pos := by
  induction tokens generalizing offset index pos with
  | nil => simp at h
  | cons first tokens ih =>
      -- what stands behind the first token has an index behind its own
      have hrest : ∀ pos, (((tokens.zipIdx (offset + 1)).filter (!·.1.isTrivia))[pos]? =
          some (token, offset + index)) → ∃ inner, index = inner + 1 ∧
            ((tokens.take inner).filter (!·.isTrivia)).length = pos := by
        intro pos hget
        have hle := List.le_snd_of_mem_zipIdx (List.mem_of_mem_filter (List.mem_of_getElem? hget))
        obtain ⟨inner, rfl⟩ : ∃ inner, index = inner + 1 := ⟨index - 1, by omega⟩
        rw [Nat.add_comm inner 1, ← Nat.add_assoc] at hget
        exact ⟨inner, rfl, ih hget⟩
      rw [List.zipIdx_cons, List.filter_cons] at h
      split at h
      · next hsolid =>
        cases pos with
        | zero =>
            simp only [List.getElem?_cons_zero, Option.some.injEq, Prod.mk.injEq] at h
            have hindex : index = 0 := by omega
            simp [hindex]
        | succ pos =>
            obtain ⟨inner, rfl, hlength⟩ := hrest pos h
            simpa [List.filter_cons, hsolid] using hlength
      · next htrivia =>
        obtain ⟨inner, rfl, hlength⟩ := hrest pos h
        simpa [List.filter_cons, htrivia] using hlength

theorem marksOf_concat (before : List Token) {last : Token} (h : last.isTrivia = false) :
    marksOf (before ++ [last]) =
      marksOf before ++ [⟨last.kind, last.text, before.length, last.start⟩] := by
  simp [marksOf, List.zipIdx_append, h]

-- A list that ends with the end has no other marks than its own.
theorem marks_of_concat (source : String) (before : List Token) {last : Token}
    (hlast : last.kind = .finish) :
    (ofTokens source (before ++ [last])).marks = (marksOf (before ++ [last])).toArray := by
  have htrivia : last.isTrivia = false := by
    rw [Token.isTrivia, hlast]
    rfl
  unfold ofTokens
  simp [marksOf_concat before htrivia, hlast]

-- A list that ends with the only end in it: so does the tape.
theorem finish_of_concat (source : String) {before : List Token} {last : Token}
    (hlast : last.kind = .finish) (hbefore : ∀ token ∈ before, token.kind ≠ .finish) (pos : Nat)
    (hpos : pos < (ofTokens source (before ++ [last])).size)
    (hkind : (ofTokens source (before ++ [last])).kind pos = .finish) :
    pos + 1 = (ofTokens source (before ++ [last])).size ∧
      (ofTokens source (before ++ [last])).index pos = before.length := by
  have htrivia : last.isTrivia = false := by
    rw [Token.isTrivia, hlast]
    rfl
  have hmarks := marks_of_concat source before hlast
  rw [marksOf_concat before htrivia] at hmarks
  have hsize : (ofTokens source (before ++ [last])).size = (marksOf before).length + 1 := by
    simp [size, hmarks]
  rw [hsize] at hpos ⊢
  rcases Nat.eq_or_lt_of_le (Nat.le_of_lt_succ hpos) with rfl | hlt
  · exact ⟨rfl, by simp [index, mark, hmarks]⟩
  · have hmem : (ofTokens source (before ++ [last])).mark pos ∈ marksOf before := by
      simp [mark, hmarks, List.getElem?_append_left hlt, hlt]
    obtain ⟨token, hget, -, heq⟩ := mem_marksOf.1 hmem
    have hsame : token.kind = .finish := by
      rw [← hkind, kind, heq]
    exact absurd hsame (hbefore token (List.mem_of_getElem? hget))

variable (source : String) (tokens : List Token)

theorem final_kind : (ofTokens source tokens).final.kind = .finish := by
  unfold ofTokens
  simp only
  split <;> rfl

theorem marks_rise :
    (ofTokens source tokens).marks.toList.Pairwise fun a b => a.index < b.index := by
  unfold ofTokens
  simp only
  split
  · exact marksOf_rises tokens
  · simp only [List.pairwise_append]
    refine ⟨marksOf_rises tokens, List.pairwise_singleton _ _, ?_⟩
    intro mark hmark final hfinal
    cases List.mem_singleton.1 hfinal
    exact index_lt_length hmark

theorem last_kind :
    (ofTokens source tokens).marks.toList.getLast?.map (·.kind) = some .finish := by
  unfold ofTokens
  simp only
  split
  · next hlast => exact hlast
  · simp

theorem size_pos : 0 < (ofTokens source tokens).size := by
  have hlast := last_kind source tokens
  by_contra hsize
  have hnil : (ofTokens source tokens).marks.toList = [] := by
    rw [← List.length_eq_zero_iff, Array.length_toList]
    exact Nat.eq_zero_of_not_pos hsize
  simp [hnil] at hlast

theorem kind_of_size_le {pos : Nat} (h : (ofTokens source tokens).size ≤ pos) :
    (ofTokens source tokens).kind pos = .finish := by
  have hnone : (ofTokens source tokens).marks[pos]? = none := Array.getElem?_eq_none h
  simp only [kind, mark, hnone, Option.getD_none, final_kind]

theorem ofTokens_orderly : (ofTokens source tokens).Orderly where
  ends pos hkind := by
    have hlast := last_kind source tokens
    by_contra hend
    by_cases hlt : pos < (ofTokens source tokens).size
    · have hpos : pos = (ofTokens source tokens).marks.toList.length - 1 := by
        simp only [Array.length_toList]
        unfold size at hlt hend
        omega
      rw [List.getLast?_eq_getElem?, ← hpos, Array.getElem?_toList, mark_of_lt hlt] at hlast
      exact hkind (Option.some.inj hlast)
    · exact hkind (kind_of_size_le source tokens (Nat.le_of_not_lt hlt))
  rises a b hab hb := by
    have hrise := List.pairwise_iff_getElem.1 (marks_rise source tokens)
    have ha : a < (ofTokens source tokens).size := Nat.lt_trans hab hb
    have hpair := hrise a b ha hb hab
    unfold size at ha hb
    simpa [index, mark, ha, hb] using hpair

variable {source tokens}

-- A mark that is not the end is a token of the list, and not a blank or a comment.
theorem token_of_kind {pos : Nat} (h : (ofTokens source tokens).kind pos ≠ .finish) :
    ∃ token, tokens[(ofTokens source tokens).index pos]? = some token ∧ token.isTrivia = false ∧
      token.kind = (ofTokens source tokens).kind pos ∧
      token.text = ((ofTokens source tokens).mark pos).text := by
  have hlt : pos < (ofTokens source tokens).size :=
    Nat.lt_of_succ_lt ((ofTokens_orderly source tokens).ends pos h)
  have hmem : (ofTokens source tokens).mark pos ∈ (ofTokens source tokens).marks.toList :=
    Array.mem_toList_iff.2 (Array.mem_of_getElem? (mark_of_lt hlt))
  have hmark : (ofTokens source tokens).mark pos ∈ marksOf tokens := by
    revert hmem h
    unfold kind
    generalize (ofTokens source tokens).mark pos = mark
    intro h hmem
    unfold ofTokens at hmem
    simp only at hmem
    split at hmem
    · exact hmem
    · rcases List.mem_append.1 hmem with hmem | hmem
      · exact hmem
      · cases List.mem_singleton.1 hmem
        exact absurd rfl h
  obtain ⟨token, hget, htrivia, heq⟩ := mem_marksOf.1 hmark
  refine ⟨token, hget, htrivia, ?_, ?_⟩
  · unfold kind
    rw [heq]
  · rw [heq]

theorem exists_pos (source : String) {index : Nat} {token : Token} (hget : tokens[index]? = some token)
    (htrivia : token.isTrivia = false) : ∃ pos < (ofTokens source tokens).size,
      (ofTokens source tokens).mark pos = ⟨token.kind, token.text, index, token.start⟩ := by
  have hmem : (⟨token.kind, token.text, index, token.start⟩ : Mark) ∈ marksOf tokens :=
    mem_marksOf.2 ⟨token, hget, htrivia, rfl⟩
  have hmark : (⟨token.kind, token.text, index, token.start⟩ : Mark) ∈
      (ofTokens source tokens).marks := by
    unfold ofTokens
    simp only
    split
    · exact List.mem_toArray.2 hmem
    · exact List.mem_toArray.2 (List.mem_append_left _ hmem)
  obtain ⟨pos, hlt, hpos⟩ := Array.mem_iff_getElem.1 hmark
  refine ⟨pos, hlt, ?_⟩
  rw [mark, Array.getElem?_eq_getElem hlt, hpos, Option.getD_some]

-- Whatever precedes the end on the tape is a mark of the list itself.
theorem marksOf_getElem {pos : Nat} (h : (ofTokens source tokens).kind pos ≠ .finish) :
    (marksOf tokens)[pos]? = some ((ofTokens source tokens).mark pos) := by
  have hends := (ofTokens_orderly source tokens).ends pos h
  have hget := mark_of_lt (Nat.lt_of_succ_lt hends)
  rw [← hget]
  unfold ofTokens at hends ⊢
  simp only at hends ⊢
  split
  · simp
  · next hlast =>
    rw [if_neg hlast] at hends
    simp only [size, List.size_toArray, List.length_append, List.length_singleton] at hends
    simp only [List.getElem?_toArray]
    rw [List.getElem?_append_left (by omega)]

theorem length_take_of_mark {mark : Mark} {pos : Nat} (h : (marksOf tokens)[pos]? = some mark) :
    ((tokens.take mark.index).filter (!·.isTrivia)).length = pos := by
  rw [marksOf, List.getElem?_map] at h
  obtain ⟨⟨token, index⟩, hmem, rfl⟩ := Option.map_eq_some_iff.1 h
  rw [← Nat.zero_add index] at hmem
  exact length_significant_take hmem

theorem length_take_index {pos : Nat} (h : (ofTokens source tokens).kind pos ≠ .finish) :
    ((tokens.take ((ofTokens source tokens).index pos)).filter (!·.isTrivia)).length = pos :=
  length_take_of_mark (marksOf_getElem h)

end Tape

namespace Tape.Orderly

variable {tape : Tape} {pos : Nat}

theorem next_eq (h : tape.Orderly) (hkind : tape.kind pos ≠ .finish) :
    tape.next pos = pos + 1 := by
  simp only [Tape.next, h.ends pos hkind, if_true]

theorem index_mono (h : tape.Orderly) (first stop : Nat) (hle : first ≤ stop)
    (hstop : stop < tape.size) : tape.index first ≤ tape.index stop := by
  rcases Nat.eq_or_lt_of_le hle with rfl | hlt
  · exact Nat.le_refl _
  · exact Nat.le_of_lt (h.rises first stop hlt hstop)

end Tape.Orderly

namespace Tape

theorem span_of_lt {tape : Tape} {first stop : Nat} (h : first < stop) :
    tape.span first stop = ⟨tape.index first, tape.index (stop - 1) + 1⟩ := by
  have hmax : max stop (first + 1) = stop := by omega
  rw [span, hmax]

theorem span_single (tape : Tape) (pos : Nat) :
    tape.span pos (pos + 1) = Span.single (tape.index pos) := by
  rw [span_of_lt (Nat.lt_succ_self pos)]
  rfl

-- The spans of two neighbours, or of two nodes with tokens between them, join to the whole.
theorem span_join {tape : Tape} (h : tape.Orderly) {first a b stop : Nat} (hleft : first < a)
    (hmid : a ≤ b) (hright : b < stop) (hstop : stop ≤ tape.size) :
    (tape.span first a).join (tape.span b stop) = tape.span first stop := by
  have hstart := h.index_mono first b (by omega) (by omega)
  have hend := h.index_mono (a - 1) (stop - 1) (by omega) (by omega)
  rw [span_of_lt hleft, span_of_lt hright, span_of_lt (by omega : first < stop)]
  simp only [Span.join, Nat.min_eq_left hstart, Span.mk.injEq, true_and]
  omega

end Tape

end SearchPipeline.Grammar
