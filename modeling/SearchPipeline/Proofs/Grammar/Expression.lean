import SearchPipeline.Proofs.Grammar.Ensures
import SearchPipeline.Proofs.Grammar.Node
import SearchPipeline.Proofs.Grammar.Tape

namespace SearchPipeline.Grammar

open Rule

-- Expressions are remembered together with the tokens they are derived from.
def derived (tape : Tape) : Recall := fun pos _ expr stop => Derives tape (.expr expr) pos stop

theorem Tape.textBetween_single (tape : Tape) (pos : Nat) :
    tape.textBetween pos (pos + 1) = (tape.mark pos).text := by
  have hcount : pos + 1 - pos = 1 := by omega
  simp [Tape.textBetween, hcount, String.join]

namespace Derives

variable {tape : Tape} {pos : Nat}

-- A node that is one token and nothing else.
theorem leaf {node : Node} {kinds : List Kind} (hparts : node.parts = [.token kinds])
    (hkind : tape.kind pos ∈ kinds) (hspan : node.span = .single (tape.index pos))
    (htext : ∀ text, node.text? = some text → text = (tape.mark pos).text)
    (hlegal : node.Legal) : Derives tape node pos (pos + 1) where
  spells := by
    rw [hparts, Spells.token_iff]
    exact ⟨hkind, .nil⟩
  fits := by
    refine ⟨?_, ?_, hlegal⟩
    · rw [hspan, Tape.span_single]
    · intro text h
      rw [htext text h, Tape.textBetween_single]

-- A node whose parts are spelled and that has the span of the tokens read.
theorem inner {node : Node} {stop : Nat} (hspells : Spells tape node.parts pos stop)
    (hspan : node.span = tape.span pos stop) (htext : node.text? = none) (hlegal : node.Legal) :
    Derives tape node pos stop where
  spells := hspells
  fits := ⟨hspan, fun text h => by simp [htext] at h, hlegal⟩

-- A node ends before the end of the query.
theorem lt_size {node : Node} {stop : Nat} (h : Derives tape node pos stop)
    (hot : tape.Orderly) : stop < tape.size := by
  have hlt := h.lt
  have hlast : (tape.kind (stop - 1)).isGrammatical = true :=
    h.grammatical (by omega) (by omega)
  have hends := hot.ends _ (Kind.ne_finish hlast)
  omega

end Derives

section

variable {tape : Tape} (hot : tape.Orderly)

include hot

theorem name_ensures (pos : Nat) :
    Ensures (derived tape) tape pos name fun n stop => Derives tape (.name n) pos stop := by
  rw [name, Ensures.peek_bind]
  split
  · next use huse =>
    have hkind := nameUse?_eq_some huse
    have hfinish : tape.kind pos ≠ .finish := by
      intro h
      rw [h] at huse
      cases huse
    rw [Ensures.advance_bind, hot.next_eq hfinish, Ensures.pure_iff]
    exact .leaf rfl hkind rfl (by rintro _ ⟨⟩; rfl) trivial
  · exact .miss _

theorem literal_ensures {make : String → Span → Value} {kinds : List Kind} (pos : Nat)
    (hkind : tape.kind pos ∈ kinds) (hfinish : tape.kind pos ≠ .finish)
    (hparts : ∀ text span, Node.valueParts (make text span) = [.token kinds])
    (hspan : ∀ text span, (make text span).span = span)
    (htext : ∀ text span, (Node.value (make text span)).text? = some text) :
    Ensures (derived tape) tape pos (literal make)
      fun v stop => Derives tape (.value v) pos stop := by
  rw [literal, Ensures.advance_bind, hot.next_eq hfinish, Ensures.pure_iff]
  refine .leaf (hparts _ _) hkind (hspan _ _) ?_ trivial
  intro text h
  rw [htext] at h
  exact (Option.some.inj h).symm

theorem value_ensures (pos : Nat) :
    Ensures (derived tape) tape pos value fun v stop => Derives tape (.value v) pos stop := by
  rw [value, Ensures.peek_bind]
  split
  · next hkind =>
    have hmem : tape.kind pos ∈ [Kind.time, .timeOrFunction] := by simpa [or_comm] using hkind
    refine literal_ensures hot pos hmem ?_ (fun _ _ => rfl) (fun _ _ => rfl) (fun _ _ => rfl)
    rcases hkind with h | h <;> simp [h]
  split
  · next hkind =>
    exact literal_ensures hot pos (List.mem_singleton.2 hkind) (by simp [hkind])
      (fun _ _ => rfl) (fun _ _ => rfl) (fun _ _ => rfl)
  split
  · refine .bind (name_ensures hot pos) ?_
    intro n stop hname
    rw [Ensures.pure_iff]
    refine .inner ?_ hname.fits.span rfl trivial
    exact Spells.node_iff.2 ⟨stop, hname, .nil⟩
  rw [Ensures.peekAt_bind]
  split
  · next hkinds =>
    obtain ⟨hsign, hnumber⟩ := hkinds
    have hfirst : tape.kind pos ≠ .finish := by rcases hsign with h | h <;> simp [h]
    have hsecond : tape.kind (pos + 1) ≠ .finish := by simp [hnumber]
    rw [Ensures.position_bind, Ensures.advance_bind, hot.next_eq hfirst, Ensures.advance_bind,
      hot.next_eq hsecond, Ensures.spanFrom_bind, Ensures.pure_iff]
    refine ⟨?_, rfl, ?_, trivial⟩
    · exact .take (by simpa using hsign) (.token (by simp [hnumber]) .nil)
    · rintro _ ⟨⟩
      have hcount : pos + 1 + 1 - pos = 2 := by omega
      simp [Value.text, Tape.textBetween, hcount, List.range'_succ, String.join]
  split
  · next hkind =>
    rw [literal, Ensures.advance_bind, hot.next_eq (by simp [hkind]), Ensures.pure_iff]
    refine ⟨.skip (.token (by simp [hkind]) .nil), ?_, ?_, trivial⟩
    · exact (tape.span_single pos).symm
    · rintro _ ⟨⟩
      exact (tape.textBetween_single pos).symm
  · exact .miss _

end

section

variable {tape : Tape} (hot : tape.Orderly) {expression : Nat → Rule Expr}
  (hexpr : ∀ least pos, Ensures (derived tape) tape pos (expression least)
    fun e stop => Derives tape (.expr e) pos stop)

include hot hexpr

theorem expressionList_ensures (pos : Nat) :
    Ensures (derived tape) tape pos (expressionList expression) fun es stop =>
      Spells tape (separated (.token [.comma]) (es.map .expr)) pos stop := by
  rw [expressionList, Ensures.peek_bind]
  split
  · exact Ensures.pure_iff.2 .nil
  refine .bind (hexpr 0 pos) ?_
  intro first mid hfirst
  -- the items are collected in reverse, so the invariant reads them back to front
  refine .bind (.repeatStep (I := fun found stop =>
    Spells tape (separated (.token [.comma]) (.expr first :: found.reverse.map .expr)) pos stop)
    ?_ ?_) ?_
  · intro found at' hfound
    refine .eat_bind ?_ ?_
    · intro hkind
      rw [hot.next_eq (by simp [hkind])]
      refine .bind (hexpr 0 (at' + 1)) ?_
      intro e stop he
      rw [Ensures.pure_iff]
      simp only [Option.getD_some, List.reverse_cons, List.map_append, List.map_cons, List.map_nil,
        separated_concat, Spells.append_iff]
      refine ⟨at', hfound, ?_⟩
      simp only [Spells.token_iff, Spells.node_iff, Spells.nil_iff, List.mem_singleton]
      exact ⟨hkind, stop, he, rfl⟩
    · intro _
      exact Ensures.pure_iff.2 hfound
  · exact Spells.node_iff.2 ⟨mid, hfirst, .nil⟩
  · intro rest stop hrest
    exact Ensures.pure_iff.2 hrest

theorem call_ensures (pos : Nat) (hfunction : (tape.kind pos).isFunction = true) :
    Ensures (derived tape) tape pos (call expression)
      fun e stop => Derives tape (.expr e) pos stop := by
  have hkind := mem_functionKinds hfunction
  have hfinish : tape.kind pos ≠ .finish := by
    intro h
    rw [h] at hfunction
    cases hfunction
  rw [call, Ensures.position_bind, Ensures.advance_bind, hot.next_eq hfinish]
  refine .expect_bind fun hopen => ?_
  rw [hot.next_eq (by simp [hopen])]
  refine .bind (expressionList_ensures hot hexpr _) ?_
  intro args mid hargs
  refine .expect_bind fun hclose => ?_
  rw [hot.next_eq (by simp [hclose]), Ensures.spanFrom_bind, Ensures.pure_iff]
  have hname : Derives tape (.function ⟨(tape.mark pos).text, .single (tape.mark pos).index⟩)
      pos (pos + 1) := .leaf rfl hkind rfl (by rintro _ ⟨⟩; rfl) trivial
  refine .inner ?_ rfl rfl trivial
  simp only [Node.parts, Node.exprParts, Spells.append_iff, Spells.node_iff, Spells.token_iff,
    Spells.nil_iff, List.mem_singleton]
  exact ⟨mid, ⟨pos + 1 + 1, ⟨pos + 1, hname, hopen, rfl⟩, hargs⟩, hclose, rfl⟩

theorem callAhead_ensures (pos : Nat) :
    Ensures (derived tape) tape pos (callAhead expression)
      fun e stop => Derives tape (.expr e) pos stop := by
  rw [callAhead, Ensures.peek_bind, Ensures.peekAt_bind]
  split
  · next h => exact call_ensures hot hexpr pos h.1
  · exact .refuse

theorem parenthesised_ensures (pos : Nat) :
    Ensures (derived tape) tape pos (parenthesised expression)
      fun e stop => Derives tape (.expr e) pos stop := by
  rw [parenthesised, Ensures.peek_bind]
  split
  · next hopen =>
    rw [Ensures.position_bind, Ensures.advance_bind, hot.next_eq (by simp [hopen])]
    refine .bind (hexpr 0 (pos + 1)) ?_
    intro inner mid hinner
    refine .expect_bind fun hclose => ?_
    rw [hot.next_eq (by simp [hclose]), Ensures.spanFrom_bind, Ensures.pure_iff]
    refine .inner ?_ rfl rfl trivial
    simp only [Node.parts, Node.exprParts, Spells.node_iff, Spells.token_iff, Spells.nil_iff,
      List.mem_singleton]
    exact ⟨hopen, mid, hinner, hclose, rfl⟩
  · exact .refuse

theorem wildcards_ensures (pos : Nat) :
    Ensures (derived tape) tape pos (wildcards expression)
      fun e stop => Derives tape (.expr e) pos stop := by
  rw [wildcards, Ensures.peek_bind]
  split
  · next hstar =>
    have hnext : tape.next pos = pos + 1 := hot.next_eq (by simp [hstar])
    refine .firstOf ?_
    simp only [List.mem_cons, List.not_mem_nil, or_false]
    rintro rule (rfl | rfl | rfl)
    · rw [containsTerm, Ensures.position_bind, Ensures.advance_bind, hnext]
      refine .bind (hexpr starStrength (pos + 1)) ?_
      intro inner mid hinner
      rw [Ensures.peek_bind, Ensures.look_bind]
      split
      · next h =>
        rw [Ensures.advance_bind, hot.next_eq (by simp [h.1]), Ensures.spanFrom_bind,
          Ensures.pure_iff]
        refine .inner ?_ rfl rfl trivial
        simp only [Node.parts, Node.exprParts, Spells.node_iff, Spells.token_iff, Spells.nil_iff,
          List.mem_singleton]
        exact ⟨hstar, mid, hinner, h.1, rfl⟩
      · exact .refuse
    · rw [endsWithTerm, Ensures.position_bind, Ensures.advance_bind, hnext]
      refine .bind (hexpr starStrength (pos + 1)) ?_
      intro inner mid hinner
      rw [Ensures.spanFrom_bind, Ensures.pure_iff]
      refine .inner ?_ rfl rfl trivial
      simp only [Node.parts, Node.exprParts, Spells.node_iff, Spells.token_iff, Spells.nil_iff,
        List.mem_singleton]
      exact ⟨hstar, mid, hinner, rfl⟩
    · rw [loneStar, Ensures.position_bind, Ensures.advance_bind, hnext, Ensures.spanFrom_bind,
        Ensures.pure_iff]
      refine .inner ?_ rfl rfl trivial
      exact .token (List.mem_singleton.2 hstar) .nil
  · exact .refuse

omit hexpr in
theorem path_ensures (pos : Nat) :
    Ensures (derived tape) tape pos path fun e stop => Derives tape (.expr e) pos stop := by
  rw [path, Ensures.position_bind]
  refine .bind (.repeatStep (I := fun found stop => Spells tape
    (found.reverse.flatMap fun n => [.token [.slash], .node (.name n)]) pos stop) ?_ .nil) ?_
  · intro found at' hfound
    rw [segment, Ensures.peek_bind, Ensures.peekAt_bind]
    split
    · next h =>
      rw [Ensures.advance_bind, hot.next_eq (by simp [h.1])]
      refine .bind (name_ensures hot (at' + 1)) ?_
      intro n stop hname
      rw [Ensures.pure_iff]
      simp only [Option.getD_some, List.reverse_cons, List.flatMap_append, List.flatMap_cons,
        List.flatMap_nil, List.append_nil, Spells.append_iff, Spells.token_iff, Spells.node_iff,
        Spells.nil_iff, List.mem_singleton]
      exact ⟨at', hfound, h.1, stop, hname, rfl⟩
    · exact Ensures.pure_iff.2 hfound
  · intro names stop hnames
    split
    · exact .refuse
    · next hne =>
      rw [Ensures.spanFrom_bind, Ensures.pure_iff]
      exact .inner hnames rfl rfl (List.reverse_eq_nil_iff.not.2 hne)

theorem primary_ensures (pos : Nat) :
    Ensures (derived tape) tape pos (primary expression)
      fun e stop => Derives tape (.expr e) pos stop := by
  refine .firstOf ?_
  simp only [List.mem_cons, List.not_mem_nil, or_false]
  rintro rule (rfl | rfl | rfl | rfl | rfl)
  · exact callAhead_ensures hot hexpr pos
  · exact parenthesised_ensures hot hexpr pos
  · exact wildcards_ensures hot hexpr pos
  · exact path_ensures hot pos
  · refine .bind (value_ensures hot pos) ?_
    intro v stop hvalue
    rw [Ensures.pure_iff]
    exact .inner (Spells.node_iff.2 ⟨stop, hvalue, .nil⟩) hvalue.fits.span rfl trivial

-- The left operand, the operator at hand and a right operand make a product, a sum and so on.
theorem operand_ensures {op : ArithOp} {lhs : Expr} {first : Nat} (pos : Nat)
    (hkind : tape.kind pos = op.kind) (hlhs : Derives tape (.expr lhs) first pos) :
    Ensures (derived tape) tape pos (operand expression op lhs)
      fun e stop => Derives tape (.expr e) first stop := by
  have hfinish : tape.kind pos ≠ .finish := by
    rw [hkind]
    cases op <;> simp [ArithOp.kind]
  rw [operand, Ensures.advance_bind, hot.next_eq hfinish]
  refine .bind (hexpr op.rightStrength (pos + 1)) ?_
  intro rhs stop hrhs
  rw [Ensures.pure_iff]
  have hsize := hrhs.lt_size hot
  refine .inner ?_ ?_ rfl trivial
  · simp only [Node.parts, Node.exprParts, Spells.node_iff, Spells.token_iff, Spells.nil_iff,
      List.mem_singleton]
    exact ⟨pos, hlhs, hkind, stop, hrhs, rfl⟩
  · have hleft : lhs.span = tape.span first pos := hlhs.fits.span
    have hright : rhs.span = tape.span (pos + 1) stop := hrhs.fits.span
    simp only [Node.span, Expr.span, hleft, hright]
    exact Tape.span_join hot hlhs.lt (by omega) hrhs.lt (by omega)

-- A star behind an operand: a product, the mark at the end of `term*`, or nothing.
theorem starStep_ensures {least : Nat} {lhs : Expr} {first : Nat} (pos : Nat)
    (hstar : tape.kind pos = .star) (hlhs : Derives tape (.expr lhs) first pos) :
    Ensures (derived tape) tape pos (starStep expression least lhs)
      fun next stop => Derives tape (.expr (next.getD lhs)) first stop := by
  have hmark : Derives tape
      (.expr (.startsWith lhs ⟨lhs.span.start, (tape.mark pos).index + 1⟩)) first (pos + 1) := by
    refine .inner (Spells.node_iff.2 ⟨pos, hlhs, .token (List.mem_singleton.2 hstar) .nil⟩)
      ?_ rfl trivial
    have hspan : lhs.span = tape.span first pos := hlhs.fits.span
    have hlt := hlhs.lt
    rw [Tape.span_of_lt (by omega : first < pos + 1)]
    simp only [Node.span, Expr.span, hspan, Tape.span]
    rfl
  rw [starStep, Ensures.look_bind, Ensures.look_bind]
  split
  · exact Ensures.pure_iff.2 hlhs
  generalize hrest : (fun product : Option Expr => _) = rest
  have hafter : ∀ product mid, (product = none → mid = pos) →
      (∀ e, product = some e → Derives tape (.expr e) first mid) →
      Ensures (derived tape) tape mid (rest product)
        fun next stop => Derives tape (.expr (next.getD lhs)) first stop := by
    subst hrest
    rintro (_ | e) mid hnone hsome
    · rw [hnone rfl]
      simp only
      split
      · rw [Ensures.advance_bind, hot.next_eq (by simp [hstar]), Ensures.pure_iff]
        exact hmark
      · exact Ensures.pure_iff.2 hlhs
    · exact Ensures.pure_iff.2 (hsome e rfl)
  simp only
  split
  · refine .bind (.attempt (Q := fun product mid => (product = none → mid = pos) ∧
      ∀ e, product = some e → Derives tape (.expr e) first mid) ?_ ⟨fun _ => rfl, by simp⟩) ?_
    · have hmult : tape.kind pos = ArithOp.mult.kind := hstar
      refine (operand_ensures hot hexpr pos hmult hlhs).mono ?_
      intro e stop he
      exact ⟨by simp, by rintro _ ⟨⟩; exact he⟩
    · rintro product mid ⟨hnone, hsome⟩
      exact hafter product mid hnone hsome
  · exact .bind (P := fun product mid => product = none ∧ mid = pos)
      (Ensures.pure_iff.2 ⟨rfl, rfl⟩)
      (by rintro _ _ ⟨rfl, rfl⟩; exact hafter none _ (fun _ => rfl) (by simp))

theorem operatorStep_ensures {least : Nat} {lhs : Expr} {first : Nat} (pos : Nat)
    (hlhs : Derives tape (.expr lhs) first pos) :
    Ensures (derived tape) tape pos (operatorStep expression least lhs)
      fun next stop => Derives tape (.expr (next.getD lhs)) first stop := by
  rw [operatorStep, Ensures.peek_bind]
  split
  · next hstar => exact starStep_ensures hot hexpr pos hstar hlhs
  split
  · exact Ensures.pure_iff.2 hlhs
  · next op hop =>
    split
    · exact Ensures.pure_iff.2 hlhs
    · exact .attempt (operand_ensures hot hexpr pos (ArithOp.ofKind?_eq_some hop) hlhs) hlhs

theorem operators_ensures (least pos : Nat) :
    Ensures (derived tape) tape pos (operators expression least)
      fun e stop => Derives tape (.expr e) pos stop := by
  refine .bind (primary_ensures hot hexpr pos) ?_
  intro first mid hfirst
  exact .repeatStep (I := fun e stop => Derives tape (.expr e) pos stop)
    (fun lhs at' hlhs => operatorStep_ensures hot hexpr at' hlhs) hfirst

end

end SearchPipeline.Grammar
