import SearchPipeline.Proofs.Text.Position
import SearchPipeline.Proofs.Text.Split

namespace SearchPipeline.Position

open Text

variable {source : String} {offset a b : Nat}

theorem behind_eq (cs : List Char) :
    behind cs = ⟨cs.count '\n' + 1, (cs.rtakeWhile (· != '\n')).length + 1⟩ := by
  induction cs using List.reverseRecOn with
  | nil => rfl
  | append_singleton cs c ih =>
      have hstep : behind (cs ++ [c]) = (behind cs).step c := by
        simp [behind]
      rw [hstep, ih, step, List.rtakeWhile_concat]
      by_cases hc : c = '\n'
      · simp [hc]
      · simp [hc]

-- On the line of the position, what follows the characters before its column is what the text holds
-- from the offset up to the next line break.
def PointsAt (here : Position) (source : String) (offset : Nat) : Prop :=
  ∃ row skipped line, here = ⟨row + 1, skipped + 1⟩ ∧
    (source.toList.splitOn '\n')[row]? = some line ∧ skipped ≤ line.length ∧
    line.drop skipped = (fromOffset source.toList offset).takeWhile (· != '\n')

theorem locate_pointsAt (h : String.Pos.Raw.IsValid source ⟨offset⟩) :
    (locate source offset).PointsAt source offset := by
  obtain ⟨read, rest, hsource, rfl⟩ := exists_append_of_isValid h
  refine ⟨read.count '\n', (read.rtakeWhile (· != '\n')).length,
    read.rtakeWhile (· != '\n') ++ rest.takeWhile (· != '\n'), ?_, ?_, ?_, ?_⟩
  · rw [locate_of_append hsource, behind_eq]
  · rw [hsource, getElem?_splitOn_append]
  · simp
  · rw [List.drop_left, hsource, fromOffset_append]

-- The characters before an offset fill it up just if it does not fall inside a character.
theorem byteLength_beforeOffset_eq_iff :
    byteLength (beforeOffset source.toList offset) = min offset source.utf8ByteSize ↔
      String.Pos.Raw.IsValid source ⟨min offset source.utf8ByteSize⟩ := by
  constructor
  · intro hlength
    rw [← hlength]
    exact isValid_of_append (beforeOffset_append_fromOffset source.toList offset).symm
  · intro hvalid
    obtain ⟨read, rest, hsource, hread⟩ := exists_append_of_isValid hvalid
    rw [← beforeOffset_min, byteLength_toList, ← hread, hsource, beforeOffset_append]

theorem locate?_eq_some_iff {here : Position} : locate? source offset = some here ↔
    String.Pos.Raw.IsValid source ⟨min offset source.utf8ByteSize⟩ ∧ locate source offset = here := by
  rw [locate?, Option.ite_none_right_eq_some, byteLength_beforeOffset_eq_iff, Option.some.injEq]
  rfl

theorem locate?_of_isValid (h : String.Pos.Raw.IsValid source ⟨offset⟩) :
    locate? source offset = some (locate source offset) := by
  have hle : offset ≤ source.utf8ByteSize := h.le_rawEndPos
  rw [locate?_eq_some_iff, Nat.min_eq_left hle]
  exact ⟨h, rfl⟩

theorem locate_of_size_le (h : source.utf8ByteSize ≤ offset) :
    locate source offset = locate source source.utf8ByteSize := by
  rw [locate, locate, ← beforeOffset_min, byteLength_toList, Nat.min_eq_right h]

theorem locate?_of_size_le (h : source.utf8ByteSize ≤ offset) :
    locate? source offset = some (locate source source.utf8ByteSize) := by
  rw [locate?_eq_some_iff, Nat.min_eq_right h]
  exact ⟨String.Pos.Raw.isValid_rawEndPos, locate_of_size_le h⟩

theorem Before.irrefl (here : Position) : ¬ here.Before here := by
  unfold Before
  omega

theorem locate_before_iff (ha : String.Pos.Raw.IsValid source ⟨a⟩)
    (hb : String.Pos.Raw.IsValid source ⟨b⟩) :
    (locate source a).Before (locate source b) ↔ a < b := by
  refine ⟨fun hbefore => ?_, locate_before ha hb⟩
  rcases Nat.lt_trichotomy a b with hlt | rfl | hgt
  · exact hlt
  · exact absurd hbefore (Before.irrefl _)
  · exact absurd (hbefore.trans (locate_before hb ha hgt)) (Before.irrefl _)

-- Every offset between characters has a position, which leads back to it, and the order of positions is
-- that of the offsets. An offset beyond the end has the position of the end.
theorem locate_identifies (source : String) :
    (∀ offset, String.Pos.Raw.IsValid source ⟨offset⟩ →
      locate? source offset = some (locate source offset) ∧
      (locate source offset).PointsAt source offset) ∧
    (∀ a b, String.Pos.Raw.IsValid source ⟨a⟩ → String.Pos.Raw.IsValid source ⟨b⟩ →
      ((locate source a).Before (locate source b) ↔ a < b)) ∧
    ∀ offset, source.utf8ByteSize ≤ offset →
      locate? source offset = some (locate source source.utf8ByteSize) := by
  refine ⟨fun offset hvalid => ?_, fun a b ha hb => locate_before_iff ha hb, fun offset hle => ?_⟩
  · exact ⟨locate?_of_isValid hvalid, locate_pointsAt hvalid⟩
  · exact locate?_of_size_le hle

-- A line break and a character of three bytes stand between the two places.
theorem locate_identifies_multibyte :
    String.Pos.Raw.IsValid "é\nab€c" ⟨2⟩ ∧ String.Pos.Raw.IsValid "é\nab€c" ⟨8⟩ ∧
    (locate "é\nab€c" 2).Before (locate "é\nab€c" 8) ∧
    locate? "é\nab€c" 8 = some ⟨2, 4⟩ ∧ PointsAt ⟨2, 4⟩ "é\nab€c" 8 ∧
    locate? "é\nab€c" 12 = some ⟨2, 5⟩ := by
  obtain ⟨hplace, horder, hend⟩ := locate_identifies "é\nab€c"
  have hfirst : String.Pos.Raw.IsValid "é\nab€c" ⟨2⟩ := by decide
  have hsecond : String.Pos.Raw.IsValid "é\nab€c" ⟨8⟩ := by decide
  exact ⟨hfirst, hsecond, (horder 2 8 hfirst hsecond).2 (by decide), (hplace 8 hsecond).1,
    (hplace 8 hsecond).2, hend 12 (by decide)⟩

end SearchPipeline.Position
