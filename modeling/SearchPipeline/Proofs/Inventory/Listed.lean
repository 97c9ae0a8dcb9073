import Mathlib.Data.List.Nodup
import SearchPipeline.Inventory.Discover

namespace SearchPipeline.Inventory

variable {text other : String} {texts found : List String} {findings : List Finding}
  {category : Category}

def listed (inventory : Inventory) : Category → List String
  | .datamodel => inventory.datamodels
  | .dataset => inventory.datasets
  | .lookup => inventory.lookups
  | .source => inventory.sources
  | .sourcetype => inventory.sourcetypes
  | .inputField => inventory.inputFields

@[simp] theorem listed_ofFindings (findings : List Finding) (category : Category) :
    (ofFindings findings).listed category = collect findings category := by
  cases category <;> rfl

theorem mem_addNew : text ∈ addNew found other ↔ text ∈ found ∨ text ≠ "" ∧ text = other := by
  unfold addNew
  split
  · next hold =>
    constructor
    · exact .inl
    · rintro (hmem | ⟨hne, rfl⟩)
      · exact hmem
      · exact hold.resolve_left hne
  · next hnew =>
    rw [not_or] at hnew
    rw [List.mem_append, List.mem_singleton]
    refine or_congr_right ⟨fun htext => ⟨?_, htext⟩, And.right⟩
    rw [htext]
    exact hnew.1

theorem mem_foldl_addNew :
    text ∈ texts.foldl addNew found ↔ text ∈ found ∨ text ≠ "" ∧ text ∈ texts := by
  induction texts generalizing found with
  | nil => simp
  | cons first texts ih =>
      rw [List.foldl_cons, ih, mem_addNew, List.mem_cons, or_assoc, ← and_or_left]

-- A list that repeats nothing and holds no empty text.
structure Clean (found : List String) : Prop where
  nodup : found.Nodup
  nonempty : ∀ text ∈ found, text ≠ ""

theorem Clean.addNew (h : Clean found) (text : String) : Clean (addNew found text) := by
  unfold Inventory.addNew
  split
  · exact h
  · next hnew =>
    rw [not_or] at hnew
    constructor
    · rw [List.nodup_append]
      refine ⟨h.nodup, List.nodup_singleton text, ?_⟩
      rintro other hmem _ htext rfl
      exact hnew.2 (List.mem_singleton.1 htext ▸ hmem)
    · intro other hmem
      rcases List.mem_append.1 hmem with hmem | hmem
      · exact h.nonempty other hmem
      · rw [List.mem_singleton.1 hmem]
        exact hnew.1

theorem Clean.foldl (h : Clean found) (texts : List String) :
    Clean (texts.foldl Inventory.addNew found) := by
  induction texts generalizing found with
  | nil => exact h
  | cons text texts ih => exact ih (h.addNew text)

theorem mem_collect : text ∈ collect findings category ↔ text ≠ "" ∧ ⟨category, text⟩ ∈ findings := by
  rw [collect, distinct, mem_foldl_addNew]
  simp only [List.not_mem_nil, false_or, List.mem_map, List.mem_filter, decide_eq_true_eq]
  refine and_congr_right fun _ => ⟨?_, fun hmem => ⟨_, ⟨hmem, rfl⟩, rfl⟩⟩
  rintro ⟨finding, ⟨hmem, rfl⟩, rfl⟩
  exact hmem

theorem clean_collect (findings : List Finding) (category : Category) :
    Clean (collect findings category) :=
  Clean.foldl ⟨List.nodup_nil, by simp⟩ _

end SearchPipeline.Inventory
