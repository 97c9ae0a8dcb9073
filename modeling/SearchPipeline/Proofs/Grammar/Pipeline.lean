import SearchPipeline.Proofs.Grammar.Operation

namespace SearchPipeline.Grammar

open Rule

-- The rules of a level read what the grammar derives.
structure Level.Ensures (tape : Tape) (level : Level) : Prop where
  operation : ∀ least pos, Rule.Ensures (derived tape) tape pos (level.operation least)
    fun o stop => Derives tape (.operation o) pos stop
  expression : ∀ least pos, Rule.Ensures (derived tape) tape pos (level.expression least)
    fun e stop => Derives tape (.expr e) pos stop
  subquery : ∀ pos, Rule.Ensures (derived tape) tape pos level.subquery
    fun q stop => Derives tape (.subquery q) pos stop

section

variable {tape : Tape} (hot : tape.Orderly) {level : Level} (hlevel : level.Ensures tape)

include hot

theorem command_ensures (pos : Nat) :
    Ensures (derived tape) tape pos command fun c stop =>
      c.kind = tape.kind pos ∧ Derives tape (.command c) pos stop := by
  rw [command, Ensures.peek_bind]
  split
  · next hkind =>
    have hfinish : tape.kind pos ≠ .finish := by
      intro h
      rw [h] at hkind
      cases hkind
    rw [Ensures.advance_bind, hot.next_eq hfinish, Ensures.pure_iff]
    exact ⟨rfl, .leaf rfl List.mem_cons_self rfl (by rintro _ ⟨⟩; rfl) hkind⟩
  · exact .miss _

include hlevel

theorem operand?_ensures {found : List Operation} {start : Nat} (pos : Nat)
    (hfound : Spells tape (bodyParts found.reverse none) start pos) :
    Ensures (derived tape) tape pos (operand? level found) fun next stop =>
      Spells tape (bodyParts (next.getD found).reverse none) start stop := by
  rw [operand?, Ensures.peek_bind]
  split
  · refine .bind (hlevel.operation 0 pos) ?_
    intro o mid ho
    have hmore : ∀ stop, Spells tape [.optional [.comma]] mid stop →
        Spells tape (bodyParts (o :: found).reverse none) start stop := by
      intro stop hcomma
      simp only [bodyParts, Option.toList_none, List.map_nil, List.append_nil, List.reverse_cons,
        List.flatMap_append, List.flatMap_cons, List.flatMap_nil, Spells.append_iff] at hfound ⊢
      exact ⟨pos, hfound, Spells.node_iff.2 ⟨mid, ho, hcomma⟩⟩
    refine .eat_bind ?_ ?_
    · intro hcomma
      rw [hot.next_eq (by simp [hcomma]), Ensures.pure_iff]
      exact hmore _ (.take (List.mem_singleton.2 hcomma) .nil)
    · intro _
      rw [Ensures.pure_iff]
      exact hmore _ (.skip .nil)
  · exact Ensures.pure_iff.2 hfound

theorem body_ensures (pos : Nat) :
    Ensures (derived tape) tape pos (body level) fun found stop =>
      Spells tape (bodyParts found.1 found.2) pos stop ∧ (found.1 ≠ [] ∨ found.2 ≠ none) := by
  rw [body]
  refine .bind (.repeatStep (I := fun found stop =>
    Spells tape (bodyParts found.reverse none) pos stop)
    (fun found at' hfound => operand?_ensures hot hlevel at' hfound) .nil) ?_
  intro found mid hfound
  refine .bind (P := fun q stop => Spells tape (bodyParts found.reverse q) pos stop) ?_ ?_
  · rw [subquery?, Ensures.peek_bind]
    split
    · refine .bind (hlevel.subquery mid) ?_
      intro q stop hq
      rw [Ensures.pure_iff]
      simp only [bodyParts, Option.toList_none, List.map_nil, List.append_nil] at hfound
      simp only [bodyParts, Option.toList_some, List.map_cons, List.map_nil, Spells.append_iff]
      exact ⟨mid, hfound, Spells.node_iff.2 ⟨stop, hq, .nil⟩⟩
    · exact Ensures.pure_iff.2 hfound
  · intro q stop hbody
    split
    · exact .miss _
    · next hsome =>
      rw [Ensures.pure_iff]
      refine ⟨hbody, ?_⟩
      by_contra hnone
      simp only [not_or, ne_eq, not_not, List.reverse_eq_nil_iff] at hnone
      simp [hnone] at hsome

theorem openingWithCommand_ensures (pos : Nat) :
    Ensures (derived tape) tape pos (openingWithCommand level) fun found stop =>
      Spells tape (found.1.toList.map (.node ∘ .command) ++ bodyParts found.2.1 found.2.2) pos stop ∧
        (found.2.1 ≠ [] ∨ found.2.2 ≠ none) ∧
        ∀ c, found.1 = some c → c.kind = .openingCommand := by
  rw [openingWithCommand, Ensures.peek_bind]
  split
  · next hkind =>
    refine .bind (command_ensures hot pos) ?_
    rintro c mid ⟨hc, hcommand⟩
    refine .bind (body_ensures hot hlevel mid) ?_
    rintro found stop ⟨hbody, hsome⟩
    rw [Ensures.pure_iff]
    refine ⟨Spells.node_iff.2 ⟨mid, hcommand, hbody⟩, hsome, ?_⟩
    rintro _ ⟨⟩
    rw [hc, hkind]
  · exact .refuse

theorem opening_ensures (pos : Nat) :
    Ensures (derived tape) tape pos (opening level)
      fun s stop => Derives tape (.opening s) pos stop := by
  rw [opening, Ensures.position_bind]
  refine .bind (.eat .pipe) ?_
  intro piped mid hpiped
  have hbefore : Spells tape (if piped then [.token [.pipe]] else []) pos mid := by
    cases piped with
    | false => exact hpiped.2 ▸ .nil
    | true =>
        rw [hpiped.2, hot.next_eq (by simp [hpiped.1])]
        exact .token (List.mem_singleton.2 hpiped.1) .nil
  refine .bind (.firstOf (P := fun found stop => Spells tape
    (found.1.toList.map (.node ∘ .command) ++ bodyParts found.2.1 found.2.2) mid stop ∧
      (found.2.1 ≠ [] ∨ found.2.2 ≠ none) ∧ ∀ c, found.1 = some c → c.kind = .openingCommand)
    ?_) ?_
  · simp only [List.mem_cons, List.not_mem_nil, or_false]
    rintro rule (rfl | rfl)
    · exact openingWithCommand_ensures hot hlevel mid
    · refine .bind (body_ensures hot hlevel mid) ?_
      rintro found stop ⟨hbody, hsome⟩
      exact Ensures.pure_iff.2 ⟨hbody, hsome, by simp⟩
  · rintro ⟨command, operations, subquery⟩ stop ⟨hparts, hsome, hcommand⟩
    change Ensures _ _ _ (spanFrom pos >>= _) _
    rw [Ensures.spanFrom_bind, Ensures.pure_iff]
    refine .inner ?_ rfl rfl ⟨hsome, hcommand⟩
    simp only [Node.parts, List.append_assoc, Spells.append_iff] at hparts ⊢
    exact ⟨mid, hbefore, hparts⟩

theorem stage_ensures (pos : Nat) :
    Ensures (derived tape) tape pos (stage level)
      fun s stop => Derives tape (.stage s) pos stop := by
  rw [stage, Ensures.position_bind]
  refine .bind (command_ensures hot pos) ?_
  rintro c mid ⟨-, hcommand⟩
  refine .bind (body_ensures hot hlevel mid) ?_
  rintro ⟨operations, subquery⟩ stop ⟨hbody, hsome⟩
  change Ensures _ _ _ (spanFrom pos >>= _) _
  rw [Ensures.spanFrom_bind, Ensures.pure_iff]
  refine .inner (Spells.node_iff.2 ⟨mid, hcommand, hbody⟩) rfl rfl ⟨hsome, ?_, rfl⟩
  exact Option.some_ne_none c

theorem laterStage_ensures {found : List Stage} {start : Nat} (pos : Nat)
    (hfound : Spells tape (laterParts found.reverse) start pos) :
    Ensures (derived tape) tape pos (laterStage level found) fun next stop =>
      Spells tape (laterParts (next.getD found).reverse) start stop := by
  rw [laterStage]
  refine .eat_bind ?_ ?_
  · intro hpipe
    rw [hot.next_eq (by simp [hpipe])]
    refine .bind (stage_ensures hot hlevel (pos + 1)) ?_
    intro s stop hs
    rw [Ensures.pure_iff]
    simp only [laterParts, Option.getD_some, List.reverse_cons, List.flatMap_append,
      List.flatMap_cons, List.flatMap_nil, List.append_nil, Spells.append_iff] at hfound ⊢
    exact ⟨pos, hfound, .token (List.mem_singleton.2 hpipe) (Spells.node_iff.2 ⟨stop, hs, .nil⟩)⟩
  · intro _
    exact Ensures.pure_iff.2 hfound

theorem bracketed_ensures (pos : Nat) :
    Ensures (derived tape) tape pos (bracketed level)
      fun q stop => Derives tape (.subquery q) pos stop := by
  rw [bracketed, Ensures.position_bind]
  refine .expect_bind fun hopen => ?_
  rw [hot.next_eq (by simp [hopen])]
  refine .bind (opening_ensures hot hlevel (pos + 1)) ?_
  intro first mid hfirst
  refine .bind (.repeatStep (I := fun found stop => Spells tape (laterParts found.reverse) mid stop)
    (fun found at' hfound => laterStage_ensures hot hlevel at' hfound) .nil) ?_
  intro later last hlater
  refine .expect_bind fun hclose => ?_
  rw [hot.next_eq (by simp [hclose]), Ensures.spanFrom_bind, Ensures.pure_iff]
  refine .inner ?_ rfl rfl trivial
  simp only [Node.parts, Spells.append_iff, Spells.token_iff, Spells.node_iff, Spells.nil_iff,
    List.mem_singleton]
  exact ⟨last, ⟨mid, ⟨hopen, mid, hfirst, rfl⟩, hlater⟩, hclose, rfl⟩

end

theorem tier_ensures {tape : Tape} (hot : tape.Orderly) (keep : Bool) (room : Nat) :
    (tier keep room).Ensures tape := by
  induction room with
  | zero =>
      refine ⟨fun least pos => .whileShallow .sink, fun least pos => ?_, fun pos => .whileShallow .sink⟩
      simp only [tier]
      split
      · exact .remembered (.whileShallow .sink)
      · exact .whileShallow .sink
  | succ room ih =>
      refine ⟨fun least pos => .whileShallow (connectives_ensures hot ih.expression ih.operation least pos),
        fun least pos => ?_, fun pos => .whileShallow (bracketed_ensures hot ih pos)⟩
      have hoperators := operators_ensures hot ih.expression least pos
      simp only [tier]
      split
      · exact .remembered (.whileShallow (.record hoperators))
      · exact .whileShallow hoperators

end SearchPipeline.Grammar
