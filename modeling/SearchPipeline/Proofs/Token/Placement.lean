import SearchPipeline.Proofs.Text.Position
import SearchPipeline.Proofs.Token.Requests

namespace SearchPipeline.Scan

open Text

def Item.start : Item → Nat
  | .ok token => token.start
  | .error mistake => mistake.start

theorem start_request (source : String) (offset : Nat) :
    Item.start (request source offset).1 = offset := by
  unfold request
  split
  · rfl
  · next c cs _ =>
    dsimp only
    unfold item
    split <;> rfl

-- What repeated requests give, from a place between two characters on.
structure Placed (source : String) (offset : Nat) (found : List Item) : Prop where
  rises : found.Pairwise fun a b => Item.start a < Item.start b
  le : ∀ item ∈ found, offset ≤ Item.start item
  valid : ∀ item ∈ found, String.Pos.Raw.IsValid source ⟨Item.start item⟩

theorem Requests.placed {source : String} {offset : Nat} {found : List Item}
    (h : Requests source offset found) (hvalid : String.Pos.Raw.IsValid source ⟨offset⟩) :
    Placed source offset found := by
  induction h with
  | finish =>
      refine ⟨List.pairwise_singleton _ _, ?_, ?_⟩
      · simp [Item.start]
      · simpa [Item.start] using hvalid
  | @next offset behind item items hrequest hlt _ hbehind _ _ ih =>
      have hstart : Item.start item = offset := by
        rw [← start_request source offset, hrequest]
      obtain ⟨hrises, hle, hrest⟩ := ih hbehind
      refine ⟨List.pairwise_cons.2 ⟨fun other hmem => ?_, hrises⟩, ?_, ?_⟩
      · have := hle other hmem
        omega
      · intro other hmem
        rcases List.mem_cons.1 hmem with rfl | hmem
        · exact Nat.le_of_eq hstart.symm
        · have := hle other hmem
          omega
      · intro other hmem
        rcases List.mem_cons.1 hmem with rfl | hmem
        · rwa [hstart]
        · exact hrest other hmem

theorem placed_items (source : String) : Placed source 0 (items source) :=
  (requests_items source).placed (isValid_of_append (List.nil_append source.toList).symm)

-- The flaws of a text begin one behind the other.
theorem mistakes_placed {source : String} {wrong : List Mistake} (h : tokens source = .error wrong) :
    wrong ≠ [] ∧ (wrong.Pairwise fun a b => a.start < b.start) ∧
      ∀ mistake ∈ wrong, String.Pos.Raw.IsValid source ⟨mistake.start⟩ := by
  have hplaced := placed_items source
  obtain ⟨hne, rfl⟩ : wrong ≠ [] ∧ mistakes (items source) = wrong := by
    unfold tokens at h
    simp only at h
    split at h
    · cases h
    · next hne =>
      cases h
      exact ⟨hne, rfl⟩
  refine ⟨hne, ?_, ?_⟩
  · refine hplaced.rises.filterMap _ fun a b hlt first hfirst second hsecond => ?_
    cases a <;> cases b <;> simp only [Option.some.injEq, reduceCtorEq] at hfirst hsecond
    subst hfirst hsecond
    exact hlt
  · intro mistake hmem
    obtain ⟨item, hitem, hmistake⟩ := List.mem_filterMap.1 hmem
    cases item <;> simp only [Option.some.injEq, reduceCtorEq] at hmistake
    subst hmistake
    exact hplaced.valid _ hitem

-- So do its tokens.
theorem tokens_placed {source : String} {found : List Token} (h : tokens source = .ok found) :
    (found.Pairwise fun a b => a.start < b.start) ∧
      ∀ token ∈ found, String.Pos.Raw.IsValid source ⟨token.start⟩ := by
  have hplaced := placed_items source
  have hitems : items source = found.map .ok := scans_iff_itemsFrom.1 (tokens_eq_ok_iff.1 h)
  rw [hitems] at hplaced
  have hrises := hplaced.rises
  rw [List.pairwise_map] at hrises
  exact ⟨hrises, fun token hmem => hplaced.valid (.ok token) (List.mem_map_of_mem hmem)⟩

end SearchPipeline.Scan
