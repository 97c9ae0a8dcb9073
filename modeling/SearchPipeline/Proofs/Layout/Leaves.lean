import SearchPipeline.Proofs.Layout.Nodes
import SearchPipeline.Proofs.Layout.Rank

namespace SearchPipeline

open Grammar

-- Pieces that stand in a list one behind the other, where only certain elements stand outside them.
inductive Woven {α : Type} (outside : α → Prop) : List α → List (List α) → Prop where
  | rest {rest : List α} : (∀ a ∈ rest, outside a) → Woven outside rest []
  | piece {gap piece whole : List α} {pieces : List (List α)} : (∀ a ∈ gap, outside a) →
      Woven outside whole pieces → Woven outside (gap ++ (piece ++ whole)) (piece :: pieces)

namespace Woven

variable {α : Type} {outside : α → Prop} {gap piece whole other : List α}
  {pieces others : List (List α)}

theorem behind (hgap : ∀ a ∈ gap, outside a) (h : Woven outside whole pieces) :
    Woven outside (gap ++ whole) pieces := by
  cases h with
  | rest hrest =>
      apply Woven.rest
      intro a hmem
      exact (List.mem_append.1 hmem).elim (hgap a) (hrest a)
  | piece hfirst hwhole =>
      rw [← List.append_assoc]
      apply Woven.piece _ hwhole
      intro a hmem
      exact (List.mem_append.1 hmem).elim (hgap a) (hfirst a)

theorem append (h : Woven outside whole pieces) (hother : Woven outside other others) :
    Woven outside (whole ++ other) (pieces ++ others) := by
  induction h with
  | rest hrest => exact hother.behind hrest
  | piece hgap _ ih =>
      rw [List.append_assoc, List.append_assoc]
      exact .piece hgap ih

theorem single (piece : List α) : Woven outside piece [piece] := by
  have h : Woven outside ([] ++ (piece ++ [])) [piece] := .piece (by simp) (.rest (by simp))
  rwa [List.nil_append, List.append_nil] at h

end Woven

namespace Outline

mutual

-- The nodes without children, from left to right.
def leaves : Outline → List Outline
  | node label text children =>
      if children.isEmpty then [node label text children] else leavesOfAll children

def leavesOfAll : List Outline → List Outline
  | [] => []
  | first :: rest => leaves first ++ leavesOfAll rest

end

theorem leavesOfAll_eq (outlines : List Outline) : leavesOfAll outlines = outlines.flatMap leaves := by
  induction outlines with
  | nil => simp only [leavesOfAll, List.flatMap_nil]
  | cons first rest ih => simp only [leavesOfAll, List.flatMap_cons, ih]

theorem leaves_of_nil {outline : Outline} (h : outline.children = []) :
    outline.leaves = [outline] := by
  obtain ⟨label, text, children⟩ := outline
  have hchildren : children = [] := h
  simp [leaves, hchildren]

theorem leaves_of_ne_nil {outline : Outline} (h : outline.children ≠ []) :
    outline.leaves = outline.children.flatMap leaves := by
  obtain ⟨label, text, children⟩ := outline
  have hchildren : children ≠ [] := h
  rw [leaves, List.isEmpty_eq_false_iff.2 hchildren, leavesOfAll_eq]
  rfl

-- A node and all nodes inside it, at any depth.
inductive Holds (outline : Outline) : Outline → Prop where
  | self : Holds outline outline
  | inside {inner child : Outline} : Holds outline inner → child ∈ inner.children →
      Holds outline child

end Outline

-- An outline shows tokens: they are what a node with its label may be made of, and it has their text.
def Outline.Stands (outline : Outline) (marks : List Mark) : Prop :=
  Single outline.label marks ∧ outline.text = String.join (marks.map (·.text))

-- Each of these nodes stands for one significant token, or for a number with its sign, and every
-- token that is shown has its place in exactly one of them.
def Enumerates (outlines : List Outline) (marks : List Mark) : Prop :=
  ∃ groups : List (List Mark), Woven (fun mark => mark.kind.isShown = false) marks groups ∧
    List.Forall₂ Outline.Stands outlines groups

namespace Enumerates

variable {outlines others : List Outline} {marks later : List Mark}

theorem nil : Enumerates [] [] := ⟨[], .rest (by simp), .nil⟩

theorem behind {mark : Mark} (hmark : mark.kind.isShown = false) (h : Enumerates outlines marks) :
    Enumerates outlines (mark :: marks) := by
  obtain ⟨groups, hwoven, hstands⟩ := h
  have hgap : ∀ other ∈ [mark], other.kind.isShown = false := by simp [hmark]
  exact ⟨groups, hwoven.behind hgap, hstands⟩

theorem append (h : Enumerates outlines marks) (hlater : Enumerates others later) :
    Enumerates (outlines ++ others) (marks ++ later) := by
  obtain ⟨groups, hwoven, hstands⟩ := h
  obtain ⟨groups', hwoven', hstands'⟩ := hlater
  exact ⟨groups ++ groups', hwoven.append hwoven', List.rel_append hstands hstands'⟩

theorem single {outline : Outline} (h : outline.Stands marks) : Enumerates [outline] marks :=
  ⟨[marks], .single marks, .cons h .nil⟩

end Enumerates

namespace Query

variable {source : String} {query : Query} {parts : List Part} {node : Node} {first stop : Nat}

-- A node has the text of the significant tokens that it derives.
theorem compactText_derives (h : Derives query.tape node first stop) :
    query.compactText node.span = query.tape.textBetween first stop := by
  rw [h.fits.span]
  exact compactText_span h.lt fun pos hfirst hstop => Kind.ne_finish (h.grammatical hfirst hstop)

theorem between_cons (tape : Tape) (h : first + 1 ≤ stop) :
    tape.between first stop = tape.mark first :: tape.between (first + 1) stop := by
  rw [← tape.between_append (Nat.le_succ first) h, Tape.between_single]
  rfl

-- One part after the other, the leaves take up what is spelled.
theorem enumerates_of_spells (h : Spells query.tape parts first stop)
    (hparts : ∀ part ∈ parts, part.Unshown) : Enumerates
      (((parts.filterMap Part.node?).map query.outlineNode).flatMap Outline.leaves)
      (query.tape.between first stop) := by
  induction h with
  | @nil pos =>
      rw [Tape.between, Nat.sub_self]
      exact .nil
  | @token kinds rest pos stop hkind hrest ih | @take kinds rest pos stop hkind hrest ih =>
      obtain ⟨hunshown, hlater⟩ := List.forall_mem_cons.1 hparts
      rw [between_cons _ hrest.le]
      exact (ih hlater).behind (hunshown _ hkind)
  | skip _ ih => exact ih (List.forall_mem_cons.1 hparts).2
  | @node node rest pos mid stop hspells hfits hrest ihnode ihrest =>
      have hnode : Enumerates (query.outlineNode node).leaves (query.tape.between pos mid) := by
        rcases query.shows_of_legal node hfits.legal with ⟨hleaf, hsingle⟩ | ⟨hinner, hsome, hunshown⟩
        · rw [Outline.leaves_of_nil hleaf]
          have htext : (query.outlineNode node).text = query.tape.textBetween pos mid :=
            (query.outlineNode_text node).trans (compactText_derives ⟨hspells, hfits⟩)
          exact .single ⟨hsingle _ _ _ hspells, htext.trans (query.tape.textBetween_eq pos mid)⟩
        · have hne : (query.outlineNode node).children ≠ [] := by
            rw [hinner]
            simpa using hsome
          rw [Outline.leaves_of_ne_nil hne, hinner]
          exact ihnode hunshown
      rw [← query.tape.between_append hspells.le hrest.le]
      exact hnode.append (ihrest (List.forall_mem_cons.1 hparts).2)

-- The texts of the nodes among the parts stand in what is spelled, one behind the other.
theorem woven_of_spells (h : Spells query.tape parts first stop) : Woven (fun _ => True)
    (query.tape.textBetween first stop).toList
    (((parts.filterMap Part.node?).map query.outlineNode).map (·.text.toList)) := by
  have hbehind : ∀ {pos stop : Nat} {pieces : List (List Char)}, pos + 1 ≤ stop →
      Woven (fun _ => True) (query.tape.textBetween (pos + 1) stop).toList pieces →
      Woven (fun _ => True) (query.tape.textBetween pos stop).toList pieces := by
    intro pos stop pieces hle hwoven
    rw [Tape.textBetween_append (Nat.le_succ pos) hle, String.toList_append]
    exact hwoven.behind fun _ _ => trivial
  induction h with
  | nil => exact .rest fun _ _ => trivial
  | token _ hrest ih | take _ hrest ih => exact hbehind hrest.le ih
  | skip _ ih => exact ih
  | @node node rest pos mid stop hspells hfits hrest _ ihrest =>
      have htext : (query.outlineNode node).text = query.tape.textBetween pos mid :=
        (query.outlineNode_text node).trans (compactText_derives ⟨hspells, hfits⟩)
      rw [Tape.textBetween_append hspells.le hrest.le, String.toList_append, ← htext]
      exact (Woven.single _).append ihrest

-- The nodes of an outline are the outline itself and the nodes of the tree.
theorem exists_of_holds (h : Query.parse source = .ok query) {outline : Outline}
    (hholds : query.outline.Holds outline) : outline = query.outline ∨
      ∃ node, query.pipeline.Has node ∧ outline = query.outlineNode node := by
  obtain ⟨stop, hspells, -, -, -, -, -, -⟩ := parse_spells h
  induction hholds with
  | self => exact .inl rfl
  | @inside inner child _ hchild ih =>
      right
      rcases ih with rfl | ⟨node, hnode, rfl⟩
      · rw [outline_eq, Outline.children, List.mem_map] at hchild
        obtain ⟨node, hmem, rfl⟩ := hchild
        exact ⟨node, .stage hmem, rfl⟩
      · obtain ⟨first, last, -, hderives⟩ := derives_of_has hspells hnode
        rcases query.shows_of_legal node hderives.fits.legal with ⟨hleaf, -⟩ | ⟨hinner, -, -⟩
        · rw [hleaf] at hchild
          cases hchild
        · rw [hinner, List.mem_map] at hchild
          obtain ⟨inside, hmem, rfl⟩ := hchild
          exact ⟨inside, hnode.inside hmem, rfl⟩

-- All significant tokens and the end.
theorem marksOf_eq (h : Query.parse source = .ok query) (hsize : stop + 1 = query.tape.size) :
    Tape.marksOf query.tokens = query.tape.between 0 stop ++ [query.tape.mark stop] := by
  have hmarks := Tape.marks_of_ended query.source (Tape.ended_of_scan (parse_eq_ok h).2.1)
  have hall : query.tape.between 0 (stop + 1) = query.tape.marks.toList := by
    apply List.ext_getElem?
    intro pos
    rw [Tape.between, Nat.sub_zero, hsize, List.getElem?_map]
    by_cases hpos : pos < query.tape.size
    · rw [List.getElem?_range' hpos, Array.getElem?_toList, Tape.mark_of_lt hpos]
      simp
    · rw [List.getElem?_eq_none (by simpa using hpos),
        List.getElem?_eq_none (by simpa [Tape.size] using hpos)]
      rfl
  have htokens : query.tape.marks.toList = Tape.marksOf query.tokens := congrArg Array.toList hmarks
  rw [← htokens, ← hall, ← Tape.between_append _ (Nat.zero_le stop) (Nat.le_succ stop),
    Tape.between_single]

-- The leaves of the outline of a query enumerate its significant tokens, and every node of it has
-- the texts of its children in its own.
theorem outline_leaves (source : String) (query : Query) (h : Query.parse source = .ok query) :
    Enumerates query.outline.leaves (Tape.marksOf query.tokens) ∧
    ∀ outline, query.outline.Holds outline →
      Woven (fun _ => True) outline.text.toList (outline.children.map (·.text.toList)) := by
  obtain ⟨stop, hspells, hpos, hkinds, hsize, hend, -, hspan⟩ := parse_spells h
  constructor
  · have hne : query.outline.children ≠ [] := by
      rw [outline_eq, filterMap_rootParts]
      exact List.cons_ne_nil _ _
    have hlast : Enumerates [] [query.tape.mark stop] := by
      apply Enumerates.nil.behind
      change (query.tape.kind stop).isShown = false
      rw [hend]
      rfl
    rw [Outline.leaves_of_ne_nil hne, outline_eq, Outline.children, marksOf_eq h hsize]
    have hall := (enumerates_of_spells hspells (unshown_root query.pipeline)).append hlast
    rwa [List.append_nil] at hall
  · intro outline hholds
    rcases exists_of_holds h hholds with rfl | ⟨node, hnode, rfl⟩
    · have hroot : query.outline.text = query.tape.textBetween 0 stop := by
        rw [outline_eq, Outline.text, hspan]
        exact compactText_root (Tape.ended_of_scan (parse_eq_ok h).2.1) hpos (by omega)
          fun pos _ hlt => Kind.ne_finish (hkinds pos hlt)
      rw [hroot, outline_eq, Outline.children]
      exact woven_of_spells hspells
    · obtain ⟨first, last, -, hderives⟩ := derives_of_has hspells hnode
      rcases query.shows_of_legal node hderives.fits.legal with ⟨hleaf, -⟩ | ⟨hinner, -, -⟩
      · rw [hleaf]
        exact .rest fun _ _ => trivial
      · rw [hinner, outlineNode_text, compactText_derives hderives]
        exact woven_of_spells hderives.spells

-- Words, a sign, stars, a path and a subquery, with tokens between them that are no leaves.
def leafy : String :=
  "search like=-5 *a* b=* | lookup t k OUTPUT v [search NOT (c<now) /w IN (1, \"x\")]"

def leafyTexts : List String :=
  ["search", "like", "-5", "a", "b", "*", "lookup", "t", "k", "v", "search", "c", "now", "w", "1",
    "\"x\""]

theorem outline_leaves_nested : ∃ query, Query.parse leafy = .ok query ∧
    query.outline.leaves.map (·.text) = leafyTexts ∧
    Enumerates query.outline.leaves (Tape.marksOf query.tokens) ∧
    ∀ outline, query.outline.Holds outline →
      Woven (fun _ => True) outline.text.toList (outline.children.map (·.text.toList)) := by
  have hread : (Query.parse leafy).toOption.any
      (fun query => query.outline.leaves.map (·.text) == leafyTexts) = true := by decide +kernel
  obtain ⟨query, hparse, hleaves⟩ := parse_of_any hread
  exact ⟨query, hparse, beq_iff_eq.1 hleaves, outline_leaves _ query hparse⟩

end Query

end SearchPipeline
