import SearchPipeline.Proofs.Grammar.Alignment
import SearchPipeline.Proofs.Grammar.Chain
import SearchPipeline.Proofs.Token.Continuation

namespace SearchPipeline.Grammar

open Scan (Solid solids Breaks Continues)

-- Indices stay as they are up to the end, which goes behind the break.
def Carry.toBreak {tokens front : List Token} (h : Breaks tokens front) : Carry where
  index index := if index + 1 < tokens.length then index else front.length
  text := Name.text
  mono a b hab := by
    have := h.length_le_succ
    split <;> split <;> omega

-- Marks that stand together further on.
def Carry.between (here there start start' : Nat) : Carry where
  index index := index - start + start'
  text := Name.text
  mono a b hab := by omega
  here := here
  there := there

namespace Tape

section

variable {tokens all front : List Token} {behind : List Solid}
  (h : Continues tokens all front behind) (source whole : String)

include h

section

variable (hended : Ended tokens)

include hended

theorem size_of_continues : (ofTokens source tokens).size = (solids 0 front).length + 1 := by
  rw [size_eq_solids source hended, h.breaks.solids_eq, List.length_append, List.length_singleton]

theorem solid_end : ((ofTokens source tokens).mark (solids 0 front).length).solid =
    ⟨.finish, "", tokens.length - 1⟩ := by
  rw [solid_mark source hended, h.breaks.solids_eq, List.getElem?_concat_length, Option.getD_some,
    Nat.zero_add]

end

variable (hall : Ended all)

include hall

theorem size_whole :
    (ofTokens whole all).size = (solids 0 front).length + (behind.length + 1) := by
  rw [size_eq_solids whole hall, h.solids, List.length_append, List.length_map, List.length_cons]

-- Up to the break the marks are the same, and they stand before it.
theorem solid_front (hended : Ended tokens) {pos : Nat} (hpos : pos < (solids 0 front).length) :
    ((ofTokens whole all).mark pos).solid = ((ofTokens source tokens).mark pos).solid ∧
      ((ofTokens source tokens).mark pos).solid.index + 1 < front.length := by
  rw [solid_mark whole hall, solid_mark source hended, h.breaks.solids_eq, h.solids,
    List.getElem?_append_left hpos, List.getElem?_append_left hpos, List.getElem?_eq_getElem hpos]
  refine ⟨rfl, ?_⟩
  have := h.breaks.index_lt 0 (List.getElem_mem hpos)
  rwa [Nat.zero_add] at this

theorem index_front (hended : Ended tokens) {pos : Nat} (hpos : pos < (solids 0 front).length) :
    (ofTokens whole all).index pos = (ofTokens source tokens).index pos :=
  congrArg Solid.index (solid_front h source whole hall hended hpos).1

theorem kind_front (hended : Ended tokens) {pos : Nat} (hpos : pos < (solids 0 front).length) :
    (ofTokens whole all).kind pos = (ofTokens source tokens).kind pos :=
  congrArg Solid.kind (solid_front h source whole hall hended hpos).1

theorem solid_behind {pos : Nat} (hpos : pos < behind.length + 1) :
    ((ofTokens whole all).mark (pos + (solids 0 front).length)).solid =
      (⟨.pipe, "|", 0⟩ :: behind)[pos].move front.length := by
  rw [solid_mark whole hall, h.solids, Nat.add_comm pos,
    List.getElem?_append_right (Nat.le_add_right _ _), Nat.add_sub_cancel_left, List.getElem?_map,
    List.getElem?_eq_getElem hpos]
  rfl

theorem solid_pipe : ((ofTokens whole all).mark (solids 0 front).length).solid =
    ⟨.pipe, "|", front.length⟩ := by
  have hpipe := solid_behind h whole hall (Nat.succ_pos behind.length)
  rw [Nat.zero_add] at hpipe
  rw [hpipe]
  simp [Solid.move]

theorem attachedLeft_front (hended : Ended tokens) {pos : Nat} (hpos : pos < (solids 0 front).length) :
    (ofTokens whole all).attachedLeft pos = (ofTokens source tokens).attachedLeft pos := by
  have hback : pos - 1 < (solids 0 front).length := by omega
  rw [attachedLeft, attachedLeft, index_front h source whole hall hended hpos,
    index_front h source whole hall hended hback]

-- The break stands between the last token before it and the `|`.
theorem attachedRight_front (hended : Ended tokens) {pos : Nat} (hpos : pos < (solids 0 front).length) :
    (ofTokens whole all).attachedRight pos = (ofTokens source tokens).attachedRight pos := by
  rw [attachedRight, attachedRight, index_front h source whole hall hended hpos]
  by_cases hnext : pos + 1 < (solids 0 front).length
  · rw [index_front h source whole hall hended hnext, kind_front h source whole hall hended hnext]
  · have hlast : pos + 1 = (solids 0 front).length := by omega
    have hfinish : (ofTokens source tokens).kind (pos + 1) = .finish := by
      rw [hlast]
      exact congrArg Solid.kind (solid_end h source hended)
    have hbreak : (ofTokens whole all).index (pos + 1) = front.length := by
      rw [hlast]
      exact congrArg Solid.index (solid_pipe h whole hall)
    have hbefore : (ofTokens source tokens).index pos + 1 < front.length :=
      (solid_front h source whole hall hended hpos).2
    have hapart : (front.length == (ofTokens source tokens).index pos + 1) = false :=
      beq_eq_false_iff_ne.2 (by omega)
    simp [hfinish, hbreak, hapart]

end

-- Marks that keep their kinds and texts, with their indices carried over.
theorem carries_of_solids {carry : Carry} {tape other : Tape} (hot : tape.Orderly)
    (hother : other.Orderly) (htext : carry.text = Name.text)
    (hsize : tape.size + carry.there ≤ other.size + carry.here)
    (hmark : ∀ pos, tape.kind (pos + carry.here) ≠ .finish →
      (other.mark (pos + carry.there)).solid = ⟨tape.kind (pos + carry.here),
        (tape.mark (pos + carry.here)).text, carry.index (tape.index (pos + carry.here))⟩)
    (hend : ∀ pos, pos + carry.here < tape.size → tape.kind (pos + carry.here) = .finish →
      (other.kind (pos + carry.there) = .finish ∨ tape.EndsAtPipe carry other pos) ∧
        other.index (pos + carry.there) = carry.index (tape.index (pos + carry.here)))
    (hleft : ∀ pos, tape.kind (pos + carry.here) = .star →
      other.attachedLeft (pos + carry.there) = tape.attachedLeft (pos + carry.here))
    (hright : ∀ pos, tape.kind (pos + carry.here) = .star →
      other.attachedRight (pos + carry.there) = tape.attachedRight (pos + carry.here)) :
    tape.Carries carry other := by
  refine ⟨hot, hother, hsize, fun pos hpos => ?_, fun pos hpos => ?_, fun pos use huse => ?_,
    fun pos _ hkind => congrArg Solid.text (hmark pos hkind), hleft, hright⟩
  · by_cases hkind : tape.kind (pos + carry.here) = .finish
    · rw [hkind]
      exact (hend pos hpos hkind).1
    · exact .inl (congrArg Solid.kind (hmark pos hkind))
  · by_cases hkind : tape.kind (pos + carry.here) = .finish
    · exact (hend pos hpos hkind).2
    · exact congrArg Solid.index (hmark pos hkind)
  · have hkind : tape.kind (pos + carry.here) ≠ .finish := by
      intro hkind
      rw [hkind] at huse
      cases huse
    rw [htext]
    exact congrArg Solid.text (hmark pos hkind)

variable {tokens others all whole front front' : List Token} {behind : List Solid}

-- The whole tape of a list is carried to the list that goes on behind it, where no bracket is open at
-- its end.
theorem carries_front (h : Continues tokens all front behind) (source target : String)
    (hended : Ended tokens) (hall : Ended all)
    (hlow : ∀ before ≤ (solids 0 front).length,
      (ofTokens source tokens).height (solids 0 front).length ≤ (ofTokens source tokens).height before) :
    (ofTokens source tokens).Carries (Carry.toBreak h.breaks) (ofTokens target all) := by
  have hot := ofTokens_orderly source tokens
  have hsize := size_of_continues h source hended
  have hwhole := size_whole h target hall
  have hlt : ∀ pos, (ofTokens source tokens).kind pos ≠ .finish → pos < (solids 0 front).length := by
    intro pos hkind
    have := hot.ends pos hkind
    omega
  have hstar : ∀ pos, (ofTokens source tokens).kind pos = .star → pos < (solids 0 front).length :=
    fun pos hstar => hlt pos (by simp [hstar])
  have hstays : ∀ pos < (solids 0 front).length, ((ofTokens target all).mark pos).solid =
      ⟨(ofTokens source tokens).kind pos, ((ofTokens source tokens).mark pos).text,
        (Carry.toBreak h.breaks).index ((ofTokens source tokens).index pos)⟩ := by
    intro pos hpos
    obtain ⟨hsolid, hbefore⟩ := solid_front h source target hall hended hpos
    have hcarry : (Carry.toBreak h.breaks).index ((ofTokens source tokens).index pos) =
        (ofTokens source tokens).index pos := if_pos (Nat.lt_of_lt_of_le hbefore h.breaks.length_le)
    rw [hcarry]
    exact hsolid
  apply carries_of_solids hot (ofTokens_orderly target all) rfl
  · change (ofTokens source tokens).size ≤ (ofTokens target all).size
    omega
  · exact fun pos hpos => hstays pos (hlt pos hpos)
  · intro pos hpos hkind
    change pos < (ofTokens source tokens).size at hpos
    by_cases hlt : pos < (solids 0 front).length
    · exact ⟨.inl ((kind_front h source target hall hended hlt).trans hkind),
        congrArg Solid.index (hstays pos hlt)⟩
    · obtain rfl : pos = (solids 0 front).length := by omega
      have hpipe := solid_pipe h target hall
      have hend : (ofTokens source tokens).index (solids 0 front).length = tokens.length - 1 :=
        congrArg Solid.index (solid_end h source hended)
      have hbreak : (Carry.toBreak h.breaks).index (tokens.length - 1) = front.length :=
        if_neg (by omega)
      refine ⟨.inr ⟨hkind, congrArg Solid.kind hpipe, hlow⟩, ?_⟩
      change _ = (Carry.toBreak h.breaks).index ((ofTokens source tokens).index (solids 0 front).length)
      rw [hend, hbreak]
      exact congrArg Solid.index hpipe
  · exact fun pos hkind => attachedLeft_front h source target hall hended (hstar pos hkind)
  · exact fun pos hkind => attachedRight_front h source target hall hended (hstar pos hkind)

section Behind

variable (h : Continues tokens all front behind) (h' : Continues others whole front' behind)
  (target target' : String) (hall : Ended all) (hwhole : Ended whole)

include h h' hall hwhole

-- Behind two breaks the marks are the same ones, moved by different distances.
theorem solid_moved {pos : Nat} (hpos : pos < behind.length + 1) :
    front'.length ≤ (ofTokens target' whole).index (pos + (solids 0 front').length) ∧
      ((ofTokens target all).mark (pos + (solids 0 front).length)).solid =
        ⟨(ofTokens target' whole).kind (pos + (solids 0 front').length),
          ((ofTokens target' whole).mark (pos + (solids 0 front').length)).text,
          (ofTokens target' whole).index (pos + (solids 0 front').length) - front'.length +
            front.length⟩ := by
  have hthere := solid_behind h' target' hwhole hpos
  have hkind : (ofTokens target' whole).kind _ = _ := congrArg Solid.kind hthere
  have htext : ((ofTokens target' whole).mark _).text = _ := congrArg Solid.text hthere
  have hindex : (ofTokens target' whole).index _ = _ := congrArg Solid.index hthere
  rw [solid_behind h target hall hpos, hkind, htext, hindex]
  simp only [Solid.move, Nat.add_sub_cancel, Nat.le_add_left, true_and]

theorem kind_moved {pos : Nat} (hpos : pos < behind.length + 1) :
    (ofTokens target all).kind (pos + (solids 0 front).length) =
      (ofTokens target' whole).kind (pos + (solids 0 front').length) :=
  congrArg Solid.kind (solid_moved h h' target target' hall hwhole hpos).2

theorem index_moved {pos : Nat} (hpos : pos < behind.length + 1) :
    (ofTokens target all).index (pos + (solids 0 front).length) =
      (ofTokens target' whole).index (pos + (solids 0 front').length) - front'.length + front.length :=
  congrArg Solid.index (solid_moved h h' target target' hall hwhole hpos).2

-- So neighbours stay neighbours.
theorem neighbours_moved {pos : Nat} (hpos : pos + 1 < behind.length + 1) :
    ((ofTokens target all).index (pos + 1 + (solids 0 front).length) ==
        (ofTokens target all).index (pos + (solids 0 front).length) + 1) =
      ((ofTokens target' whole).index (pos + 1 + (solids 0 front').length) ==
        (ofTokens target' whole).index (pos + (solids 0 front').length) + 1) := by
  have hfirst := (solid_moved h h' target target' hall hwhole (Nat.lt_of_succ_lt hpos)).1
  have hsecond := (solid_moved h h' target target' hall hwhole hpos).1
  rw [index_moved h h' target target' hall hwhole (Nat.lt_of_succ_lt hpos),
    index_moved h h' target target' hall hwhole hpos, Bool.eq_iff_iff, beq_iff_eq, beq_iff_eq]
  omega

theorem finish_moved {pos : Nat}
    (hfinish : (ofTokens target' whole).kind (pos + (solids 0 front').length) = .finish) :
    (ofTokens target all).kind (pos + (solids 0 front).length) = .finish := by
  by_cases hpos : pos < behind.length + 1
  · rw [kind_moved h h' target target' hall hwhole hpos, hfinish]
  · have hsize := size_whole h target hall
    exact kind_of_size_le target all (by omega)

-- What stands behind one list is carried to where it stands behind another.
theorem carries_behind : (ofTokens target' whole).Carries (Carry.between (solids 0 front').length
    (solids 0 front).length front'.length front.length) (ofTokens target all) := by
  have hot := ofTokens_orderly target' whole
  have hsize := size_whole h target hall
  have hsize' := size_whole h' target' hwhole
  have hlt : ∀ pos, (ofTokens target' whole).kind (pos + (solids 0 front').length) ≠ .finish →
      pos + 1 < behind.length + 1 := by
    intro pos hkind
    have := hot.ends _ hkind
    omega
  apply carries_of_solids hot (ofTokens_orderly target all) rfl
  · simp only [Carry.between]
    omega
  · exact fun pos hkind =>
      (solid_moved h h' target target' hall hwhole (Nat.lt_of_succ_lt (hlt pos hkind))).2
  · intro pos hpos hkind
    simp only [Carry.between] at hpos hkind ⊢
    exact ⟨.inl (finish_moved h h' target target' hall hwhole hkind),
      index_moved h h' target target' hall hwhole (by omega)⟩
  · intro pos hkind
    simp only [Carry.between] at hkind ⊢
    have hpos := hlt pos (by simp [hkind])
    cases pos with
    | zero =>
        have hpipe : (ofTokens target' whole).kind (0 + (solids 0 front').length) = .pipe := by
          rw [Nat.zero_add]
          exact congrArg Solid.kind (solid_pipe h' target' hwhole)
        rw [hpipe] at hkind
        cases hkind
    | succ pos =>
        have hback : ∀ distance, pos + 1 + distance - 1 = pos + distance := by omega
        have hahead : ∀ distance, pos + 1 + distance > 0 := by omega
        simp only [attachedLeft, hback, hahead,
          neighbours_moved h h' target target' hall hwhole (Nat.lt_of_succ_lt hpos)]
  · intro pos hkind
    simp only [Carry.between] at hkind ⊢
    have hpos := hlt pos (by simp [hkind])
    simp only [attachedRight, Nat.add_right_comm pos _ 1, kind_moved h h' target target' hall hwhole hpos,
      neighbours_moved h h' target target' hall hwhole hpos]

end Behind

end Tape

end SearchPipeline.Grammar
