import SearchPipeline.Proofs.Grammar.Bracket

namespace SearchPipeline.Grammar

-- Between the positions brackets are closed as they are opened.
structure Tape.Balances (tape : Tape) (pos stop : Nat) : Prop where
  le : pos ≤ stop
  level : tape.height stop = tape.height pos
  above : ∀ at', pos ≤ at' → at' ≤ stop → tape.height pos ≤ tape.height at'

namespace Tape.Balances

variable {tape : Tape} {pos mid stop : Nat}

theorem refl (tape : Tape) (pos : Nat) : tape.Balances pos pos :=
  ⟨Nat.le_refl pos, rfl, fun _ hpos hstop => Nat.le_antisymm hstop hpos ▸ Int.le_refl _⟩

theorem trans (h : tape.Balances pos mid) (h' : tape.Balances mid stop) :
    tape.Balances pos stop := by
  refine ⟨Nat.le_trans h.le h'.le, h'.level.trans h.level, fun at' hpos hstop => ?_⟩
  rcases Nat.le_total at' mid with hle | hge
  · exact h.above at' hpos hle
  · rw [← h.level]
    exact h'.above at' hge hstop

theorem step (hweight : bracketWeight (tape.kind pos) = 0) : tape.Balances pos (pos + 1) := by
  have hlevel : tape.height (pos + 1) = tape.height pos := by
    rw [height_succ, hweight, Int.add_zero]
  refine ⟨Nat.le_succ pos, hlevel, fun at' hpos hstop => ?_⟩
  obtain rfl | rfl : at' = pos ∨ at' = pos + 1 := by omega
  · exact Int.le_refl _
  · exact Int.le_of_eq hlevel.symm

-- What balances between a bracket that opens and one that closes does so with them.
theorem bracket (h : tape.Balances (pos + 1) stop) (hopen : tape.kind pos = .openBracket)
    (hclose : tape.kind stop = .closeBracket) : tape.Balances pos (stop + 1) := by
  have hfirst := tape.height_succ pos
  have hlast := tape.height_succ stop
  rw [hopen, bracketWeight] at hfirst
  rw [hclose, h.level, bracketWeight] at hlast
  have hle := h.le
  refine ⟨by omega, by omega, fun at' hpos hstop => ?_⟩
  rcases Nat.eq_or_lt_of_le hpos with rfl | hlt
  · exact Int.le_refl _
  rcases Nat.eq_or_lt_of_le hstop with rfl | hend
  · omega
  · have := h.above at' hlt (Nat.le_of_lt_succ hend)
    omega

end Tape.Balances

theorem bracketWeight_of_isFlat {kind : Kind} (h : kind.isFlat = true) :
    bracketWeight kind = 0 := by
  cases kind <;> first | rfl | cases h

section Derivations

variable {tape : Tape} {parts : List Part} {node : Node} {first stop : Nat}

-- The brackets around a subquery are the only ones, so what is spelled either names no brackets or
-- stands in a pair of them.
theorem Spells.balances_split (h : Spells tape parts first stop) :
    (∀ inner rest, parts = inner ++ rest → (∀ part ∈ inner, part.Flat) →
      ∃ mid, tape.Balances first mid ∧ Spells tape rest mid stop) ∧
    ∀ inner, parts = .token [.openBracket] :: inner ++ [.token [.closeBracket]] →
      (∀ part ∈ inner, part.Flat) → tape.Balances first stop := by
  induction h with
  | nil =>
      refine ⟨fun inner rest hparts _ => ?_, by simp⟩
      obtain ⟨-, rfl⟩ := List.append_eq_nil_iff.1 hparts.symm
      exact ⟨_, .refl tape _, .nil⟩
  | token hkind hrest ih =>
      refine ⟨fun inner rest hparts hflat => ?_, fun inner hparts hflat => ?_⟩
      · rcases List.cons_eq_append_iff.1 hparts with ⟨rfl, rfl⟩ | ⟨others, rfl, rfl⟩
        · exact ⟨_, .refl tape _, .token hkind hrest⟩
        · obtain ⟨hfirst, hothers⟩ := List.forall_mem_cons.1 hflat
          obtain ⟨mid, hmid, hspells⟩ := ih.1 others rest rfl hothers
          have hweight := bracketWeight_of_isFlat (hfirst _ hkind)
          exact ⟨mid, (Tape.Balances.step hweight).trans hmid, hspells⟩
      · rw [List.cons_append, List.cons.injEq, Part.token.injEq] at hparts
        obtain ⟨rfl, rfl⟩ := hparts
        obtain ⟨mid, hmid, hspells⟩ := ih.1 inner _ rfl hflat
        obtain ⟨hclose, hstop⟩ := Spells.token_iff.1 hspells
        rw [← Spells.nil_iff.1 hstop]
        exact hmid.bracket (List.mem_singleton.1 hkind) (List.mem_singleton.1 hclose)
  | skip hrest ih =>
      refine ⟨fun inner rest hparts hflat => ?_, by simp⟩
      rcases List.cons_eq_append_iff.1 hparts with ⟨rfl, rfl⟩ | ⟨others, rfl, rfl⟩
      · exact ⟨_, .refl tape _, .skip hrest⟩
      · exact ih.1 others rest rfl (List.forall_mem_cons.1 hflat).2
  | take hkind hrest ih =>
      refine ⟨fun inner rest hparts hflat => ?_, by simp⟩
      rcases List.cons_eq_append_iff.1 hparts with ⟨rfl, rfl⟩ | ⟨others, rfl, rfl⟩
      · exact ⟨_, .refl tape _, .take hkind hrest⟩
      · obtain ⟨hfirst, hothers⟩ := List.forall_mem_cons.1 hflat
        obtain ⟨mid, hmid, hspells⟩ := ih.1 others rest rfl hothers
        have hweight := bracketWeight_of_isFlat (hfirst _ hkind)
        exact ⟨mid, (Tape.Balances.step hweight).trans hmid, hspells⟩
  | @node node _ pos mid _ hparts hfits hrest ihparts ihrest =>
      refine ⟨fun inner rest heq hflat => ?_, by simp⟩
      have hnode : tape.Balances pos mid := by
        by_cases hsubquery : ∃ q, node = .subquery q
        · obtain ⟨q, rfl⟩ := hsubquery
          refine ihparts.2 (.node (.opening q.opening) :: laterParts q.later) rfl ?_
          exact List.forall_mem_cons.2 ⟨trivial, flat_later q.later⟩
        · obtain ⟨last, hlast, hnone⟩ := ihparts.1 node.parts [] (List.append_nil _).symm
            (Node.flat_parts hfits.legal fun q hq => hsubquery ⟨q, hq⟩)
          rwa [← Spells.nil_iff.1 hnone]
      rcases List.cons_eq_append_iff.1 heq with ⟨rfl, rfl⟩ | ⟨others, rfl, rfl⟩
      · exact ⟨_, .refl tape _, .node hparts hfits hrest⟩
      · obtain ⟨last, hlast, hspells⟩ := ihrest.1 others rest rfl (List.forall_mem_cons.1 hflat).2
        exact ⟨last, hnode.trans hlast, hspells⟩

theorem Spells.balances (h : Spells tape parts first stop) (hflat : ∀ part ∈ parts, part.Flat) :
    tape.Balances first stop := by
  obtain ⟨mid, hmid, hrest⟩ := h.balances_split.1 parts [] (List.append_nil _).symm hflat
  rwa [← Spells.nil_iff.1 hrest]

theorem Derives.balances (h : Derives tape node first stop) : tape.Balances first stop := by
  have hspells : Spells tape [.node node] first stop := Spells.node_iff.2 ⟨stop, h, .nil⟩
  exact hspells.balances (List.forall_mem_singleton.2 trivial)

end Derivations

end SearchPipeline.Grammar
