import Mathlib.Data.List.Infix
import SearchPipeline.Proofs.Token.Bytes

namespace SearchPipeline

open Text

namespace Position

-- Line by line, and from column to column within a line.
def Before (a b : Position) : Prop := a.line < b.line ∨ a.line = b.line ∧ a.column < b.column

theorem Before.trans {a b c : Position} (h : a.Before b) (h' : b.Before c) : a.Before c := by
  unfold Before at *
  omega

theorem before_step (here : Position) (c : Char) : here.Before (here.step c) := by
  unfold Before step
  by_cases hc : c = '\n'
  · simp [hc]
  · simp [hc]

theorem before_foldl (here : Position) {more : List Char} (hne : more ≠ []) :
    here.Before (more.foldl step here) := by
  induction more generalizing here with
  | nil => exact absurd rfl hne
  | cons c more ih =>
      have hc := before_step here c
      cases more with
      | nil => exact hc
      | cons d more => exact hc.trans (ih (here.step c) (List.cons_ne_nil d more))

theorem behind_before (read : List Char) {more : List Char} (hne : more ≠ []) :
    (behind read).Before (behind (read ++ more)) := by
  rw [behind, behind, List.foldl_append]
  exact before_foldl _ hne

theorem locate_of_append {source : String} {read rest : List Char}
    (h : source.toList = read ++ rest) : locate source (byteLength read) = behind read := by
  rw [locate, h, beforeOffset_append]

end Position

-- An offset between two characters, or at an end, ends a first part of the text.
theorem Text.exists_append_of_isValid {source : String} {offset : Nat}
    (h : String.Pos.Raw.IsValid source ⟨offset⟩) :
    ∃ read rest, source.toList = read ++ rest ∧ byteLength read = offset := by
  obtain ⟨first, second, hsource, hoffset⟩ := String.Pos.Raw.isValid_iff_exists_append.1 h
  refine ⟨first.toList, second.toList, ?_, ?_⟩
  · rw [hsource, String.toList_append]
  · rw [byteLength_toList]
    exact (congrArg String.Pos.Raw.byteIdx hoffset).symm

theorem Position.locate_before {source : String} {a b : Nat}
    (ha : String.Pos.Raw.IsValid source ⟨a⟩) (hb : String.Pos.Raw.IsValid source ⟨b⟩) (hlt : a < b) :
    (locate source a).Before (locate source b) := by
  obtain ⟨read, rest, hsource, rfl⟩ := exists_append_of_isValid ha
  obtain ⟨read', rest', hsource', rfl⟩ := exists_append_of_isValid hb
  rw [locate_of_append hsource, locate_of_append hsource']
  rcases List.prefix_or_prefix_of_prefix (hsource ▸ List.prefix_append read rest)
    (hsource' ▸ List.prefix_append read' rest') with ⟨more, rfl⟩ | ⟨more, rfl⟩
  · refine behind_before read ?_
    rintro rfl
    simp at hlt
  · rw [byteLength_append] at hlt
    omega

end SearchPipeline
