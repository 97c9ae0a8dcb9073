import SearchPipeline.Proofs.Grammar.Checked

namespace SearchPipeline.Grammar

open Rule

-- From every position of the tape the rule has a checked run, and if it is done, it is so further on.
def Forward {α : Type} (tape : Tape) (rule : Rule α) : Prop :=
  ∀ pos, Safe tape pos rule fun _ stop => pos < stop

-- Where the one condition fails, the token that the other one is about need not be looked at.
theorem peekAt_and {β : Type} {c : Prop} [Decidable c] {d : Kind → Prop} [DecidablePred d]
    (yes no : Rule β) : (peekAt 1 >>= fun kind => if c ∧ d kind then yes else no) =
      if c then peekAt 1 >>= fun kind => if d kind then yes else no else no := by
  by_cases hc : c
  · simp only [hc, true_and, if_true]
  · simp only [hc, false_and, if_false]
    rfl

-- What does not hold of the end holds of other kinds only.
theorem ne_finish_of {β : Type} {f : Kind → β} {kind : Kind} {value : β} (h : f kind = value)
    (hfinish : f .finish ≠ value) : kind ≠ .finish := by
  rintro rfl
  exact hfinish h

section Tokens

variable {tape : Tape} (hot : tape.Orderly)

include hot

theorem Safe.peekAt_and_bind {β : Type} {pos : Nat} {Q : β → Nat → Prop} {c : Prop} [Decidable c]
    {d : Kind → Prop} [DecidablePred d] {yes no : Rule β} (hkind : c → tape.kind pos ≠ .finish)
    (hyes : c → d (tape.kind (pos + 1)) → Safe tape pos yes Q) (hno : Safe tape pos no Q) :
    Safe tape pos (peekAt 1 >>= fun kind => if c ∧ d kind then yes else no) Q := by
  rw [peekAt_and]
  split
  · next hc =>
    refine peekAt_bind hot (hkind hc) ?_
    split
    · next hd => exact hyes hc hd
    · exact hno
  · exact hno

theorem forward_name : Forward tape name := by
  intro pos
  refine .peek_bind ?_
  split
  · next use huse =>
    exact .advance_bind hot (ne_finish_of huse nofun) fun mark => .pure (Nat.lt_succ_self pos)
  · exact .miss _

theorem safe_literal {make : String → Span → Value} {pos : Nat} (hkind : tape.kind pos ≠ .finish) :
    Safe tape pos (literal make) fun _ stop => pos < stop :=
  .advance_bind hot hkind fun _ => .pure (Nat.lt_succ_self pos)

theorem forward_value : Forward tape value := by
  intro pos
  refine .peek_bind ?_
  split
  · next hkind => exact safe_literal hot (by rcases hkind with h | h <;> simp [h])
  split
  · next hkind => exact safe_literal hot (by simp [hkind])
  split
  · exact (forward_name hot pos).bind fun _ _ hlt => .pure hlt
  refine .peekAt_and_bind hot (fun hsign => by rcases hsign with h | h <;> simp [h])
    (fun hsign hnumber => ?_) ?_
  · refine .position_bind (.advance_bind hot (by rcases hsign with h | h <;> simp [h]) fun sign => ?_)
    refine .advance_bind hot (by simp [hnumber]) fun digits => ?_
    exact .spanFrom_bind (by omega) (.pure (by omega))
  · split
    · next hkind => exact safe_literal hot (by simp [hkind])
    · exact .miss _

end Tokens

section Expressions

variable {tape : Tape} (hot : tape.Orderly) {expression : Nat → Rule Expr}
  (hexpr : ∀ least, Forward tape (expression least))

include hot hexpr

theorem safe_expressionList (pos : Nat) :
    Safe tape pos (expressionList expression) fun _ stop => pos ≤ stop := by
  refine .peek_bind ?_
  split
  · exact .pure (Nat.le_refl pos)
  refine (hexpr 0 pos).bind fun first mid hfirst => ?_
  refine .bind (P := fun _ stop => mid ≤ stop) (.repeatStep ?_ (Nat.le_refl mid)) ?_
  · intro found at' hle
    refine .eat_bind hot (by simp) ?_ (.pure ⟨by simp, fun _ => hle⟩)
    refine (hexpr 0 (at' + 1)).bind fun e stop hlt => .pure ⟨?_, by simp⟩
    rintro _ ⟨⟩
    omega
  · exact fun rest stop hle => .pure (by omega)

theorem safe_call {pos : Nat} (hkind : tape.kind pos ≠ .finish) :
    Safe tape pos (call expression) fun _ stop => pos < stop := by
  refine .position_bind (.advance_bind hot hkind fun mark => ?_)
  refine .expect_bind hot (by simp) fun _ => ?_
  refine (safe_expressionList hot hexpr _).bind fun args mid hle => ?_
  refine .expect_bind hot (by simp) fun _ => ?_
  exact .spanFrom_bind (by omega) (.pure (by omega))

theorem forward_callAhead : Forward tape (callAhead expression) := by
  intro pos
  have hfunction : (tape.kind pos).isFunction = true → tape.kind pos ≠ .finish :=
    fun h => ne_finish_of h nofun
  exact .peek_bind (.peekAt_and_bind hot hfunction
    (fun hkind _ => safe_call hot hexpr (hfunction hkind)) .refuse)

theorem forward_parenthesised : Forward tape (parenthesised expression) := by
  intro pos
  refine .peek_bind ?_
  split
  · next hopen =>
    refine .position_bind (.advance_bind hot (by simp [hopen]) fun _ => ?_)
    refine (hexpr 0 _).bind fun inner mid hlt => ?_
    refine .expect_bind hot (by simp) fun _ => ?_
    exact .spanFrom_bind (by omega) (.pure (by omega))
  · exact .refuse

theorem safe_containsTerm {pos : Nat} (hstar : tape.kind pos ≠ .finish) :
    Safe tape pos (containsTerm expression) fun _ stop => pos < stop := by
  refine .position_bind (.advance_bind hot hstar fun _ => ?_)
  refine (hexpr starStrength _).bind fun inner mid hlt => ?_
  refine .peek_bind (.attachedLeft_bind ?_)
  split
  · next h =>
    refine .advance_bind hot (by simp [h.1]) fun _ => ?_
    exact .spanFrom_bind (by omega) (.pure (by omega))
  · exact .refuse

theorem safe_endsWithTerm {pos : Nat} (hstar : tape.kind pos ≠ .finish) :
    Safe tape pos (endsWithTerm expression) fun _ stop => pos < stop := by
  refine .position_bind (.advance_bind hot hstar fun _ => ?_)
  refine (hexpr starStrength _).bind fun inner mid hlt => ?_
  exact .spanFrom_bind (by omega) (.pure (by omega))

omit hexpr in
theorem safe_loneStar {pos : Nat} (hstar : tape.kind pos ≠ .finish) :
    Safe tape pos loneStar fun _ stop => pos < stop := by
  refine .position_bind (.advance_bind hot hstar fun _ => ?_)
  exact .spanFrom_bind (by omega) (.pure (by omega))

theorem forward_wildcards : Forward tape (wildcards expression) := by
  intro pos
  refine .peek_bind ?_
  split
  · next hstar =>
    have hfinish : tape.kind pos ≠ .finish := by simp [hstar]
    refine .firstOf ?_
    simp only [List.mem_cons, List.not_mem_nil, or_false]
    rintro rule (rfl | rfl | rfl)
    · exact safe_containsTerm hot hexpr hfinish
    · exact safe_endsWithTerm hot hexpr hfinish
    · exact safe_loneStar hot hfinish
  · exact .refuse

omit hexpr in
theorem forward_path : Forward tape path := by
  intro pos
  refine .position_bind ?_
  refine .bind (P := fun found stop => pos ≤ stop ∧ (found ≠ [] → pos < stop)) (.repeatStep ?_
    ⟨Nat.le_refl pos, by simp⟩) ?_
  · rintro found at' hfound
    have hstay : Safe tape at' (pure none : Rule (Option (List Name))) (Safe.TurnsOn
        (fun found stop => pos ≤ stop ∧ (found ≠ [] → pos < stop)) at' found) :=
      .pure ⟨by simp, fun _ => hfound⟩
    refine .peek_bind (.peekAt_and_bind hot (fun hslash => by simp [hslash]) (fun hslash _ => ?_) hstay)
    refine .advance_bind hot (by simp [hslash]) fun _ => ?_
    refine (forward_name hot _).bind fun n stop hlt => .pure ⟨?_, by simp⟩
    rintro _ ⟨⟩
    exact ⟨by omega, by omega, fun _ => by omega⟩
  · rintro names stop ⟨hle, hlt⟩
    split
    · exact .refuse
    · next hne => exact .spanFrom_bind hle (.pure (hlt hne))

theorem forward_primary : Forward tape (primary expression) := by
  intro pos
  refine .firstOf ?_
  simp only [List.mem_cons, List.not_mem_nil, or_false]
  rintro rule (rfl | rfl | rfl | rfl | rfl)
  · exact forward_callAhead hot hexpr pos
  · exact forward_parenthesised hot hexpr pos
  · exact forward_wildcards hot hexpr pos
  · exact forward_path hot pos
  · exact (forward_value hot pos).bind fun v stop hlt => .pure hlt

theorem safe_operand {op : ArithOp} {lhs : Expr} {pos : Nat} (hkind : tape.kind pos ≠ .finish) :
    Safe tape pos (operand expression op lhs) fun _ stop => pos < stop :=
  .advance_bind hot hkind fun _ => (hexpr op.rightStrength _).bind fun rhs stop hlt =>
    .pure (by omega)

-- One more operator is a turn forward, and without one the position is as before.
theorem safe_starStep {least : Nat} {lhs : Expr} {first pos : Nat} (hstar : tape.kind pos = .star)
    (hfirst : first < pos) : Safe tape pos (starStep expression least lhs)
      (Safe.TurnsOn (fun _ stop => first < stop) pos lhs) := by
  have hfinish : tape.kind pos ≠ .finish := by simp [hstar]
  refine .attachedLeft_bind (.attachedRight_bind hot hfinish ?_)
  split
  · exact .pure ⟨by simp, fun _ => hfirst⟩
  generalize hrest : (fun product : Option Expr => _) = rest
  have hafter : ∀ product mid, (product = none → mid = pos) → (∀ e, product = some e → pos < mid) →
      Safe tape mid (rest product) (Safe.TurnsOn (fun _ stop => first < stop) pos lhs) := by
    subst hrest
    rintro (_ | e) mid hnone hsome
    · obtain rfl := hnone rfl
      dsimp only
      split
      · refine .advance_bind hot hfinish fun _ => .pure ⟨?_, by simp⟩
        rintro _ ⟨⟩
        omega
      · exact .pure ⟨by simp, fun _ => hfirst⟩
    · have hlt := hsome e rfl
      refine .pure ⟨?_, by simp⟩
      rintro _ ⟨⟩
      omega
  dsimp only
  split
  · refine .bind (P := fun product mid => (product = none → mid = pos) ∧
      ∀ e, product = some e → pos < mid) (.attempt ?_ ⟨fun _ => rfl, by simp⟩) ?_
    · refine (safe_operand hot hexpr hfinish).mono fun e stop hlt => ⟨by simp, ?_⟩
      rintro _ ⟨⟩
      exact hlt
    · rintro product mid ⟨hnone, hsome⟩
      exact hafter product mid hnone hsome
  · refine .bind (P := fun product mid => product = none ∧ mid = pos) (.pure ⟨rfl, rfl⟩) ?_
    rintro _ _ ⟨rfl, rfl⟩
    exact hafter none _ (fun _ => rfl) (by simp)

theorem safe_operatorStep {least : Nat} {lhs : Expr} {first pos : Nat} (hfirst : first < pos) :
    Safe tape pos (operatorStep expression least lhs)
      (Safe.TurnsOn (fun _ stop => first < stop) pos lhs) := by
  have hstay : Safe.TurnsOn (fun (_ : Expr) stop => first < stop) pos lhs none pos :=
    ⟨by simp, fun _ => hfirst⟩
  refine .peek_bind ?_
  split
  · next hstar => exact safe_starStep hot hexpr hstar hfirst
  split
  · exact .pure hstay
  · next op hop =>
    split
    · exact .pure hstay
    · refine .attempt ((safe_operand hot hexpr (ne_finish_of hop nofun)).mono ?_) hstay
      refine fun e stop hlt => ⟨?_, by simp⟩
      rintro _ ⟨⟩
      omega

theorem forward_operators (least : Nat) : Forward tape (operators expression least) := by
  intro pos
  refine (forward_primary hot hexpr pos).bind fun first mid hlt => ?_
  exact .repeatStep (fun lhs at' hat => safe_operatorStep hot hexpr hat) hlt

end Expressions

section Operations

variable {tape : Tape} (hot : tape.Orderly) {expression : Nat → Rule Expr}
  {operation : Nat → Rule Operation} (hexpr : ∀ least, Forward tape (expression least))
  (hop : ∀ least, Forward tape (operation least))

theorem forward_spanned {α : Type} {form : Rule (Span → α)} (h : Forward tape form) :
    Forward tape (spanned form) :=
  fun pos => .position_bind ((h pos).bind fun _ _ hlt => .spanFrom_bind (by omega) (.pure hlt))

include hot

theorem forward_outputMode : Forward tape outputMode := by
  intro pos
  refine .eat_bind hot (by simp) (.pure (Nat.lt_succ_self pos)) ?_
  refine .eat_bind hot (by simp) (.pure (Nat.lt_succ_self pos)) ?_
  refine .bind (P := fun _ stop => stop = pos) (.attempt (.miss _) rfl) ?_
  exact fun _ _ _ => .miss _

theorem safe_moreOutputs (count pos : Nat) :
    Safe tape pos (moreOutputs count) fun _ stop => pos ≤ stop := by
  induction count generalizing pos with
  | zero => exact .pure (Nat.le_refl pos)
  | succ count ih =>
      refine .expect_bind hot (by simp) fun _ => ?_
      refine (forward_name hot _).bind fun first mid hlt => ?_
      exact (ih mid).bind fun rest stop hle => .pure (by omega)

theorem forward_groupingForm : Forward tape groupingForm := by
  intro pos
  refine .expect_bind hot (by simp) fun _ => ?_
  refine (forward_name hot _).bind fun first mid hlt => ?_
  refine .bind (P := fun _ stop => mid ≤ stop) (.repeatStep ?_ (Nat.le_refl mid)) ?_
  · intro found at' hle
    have hname : ∀ from', at' ≤ from' → Safe tape from'
        (do return some ((← name) :: found)) (Safe.TurnsOn (fun _ stop => mid ≤ stop) at' found) := by
      intro from' hfrom
      refine (forward_name hot from').bind fun n stop hlt => .pure ⟨?_, by simp⟩
      rintro _ ⟨⟩
      omega
    refine .peek_bind (.peekAt_and_bind hot (fun hcomma => by simp [hcomma]) (fun hcomma _ => ?_) ?_)
    · exact .advance_bind hot (by simp [hcomma]) fun _ => hname _ (Nat.le_succ at')
    · refine .peek_bind ?_
      split
      · exact hname _ (Nat.le_refl at')
      · exact .pure ⟨by simp, fun _ => hle⟩
  · exact fun names stop hle => .pure (by omega)

include hexpr

theorem forward_likeForm : Forward tape (likeForm expression) := by
  intro pos
  refine (hexpr 0 pos).bind fun e mid hlt => .expect_bind hot (by simp) fun _ => ?_
  exact (forward_value hot _).bind fun pattern stop hle => .pure (by omega)

theorem forward_withinForm : Forward tape (withinForm expression) := by
  intro pos
  refine (hexpr 0 pos).bind fun e mid hlt => ?_
  refine .expect_bind hot (by simp) fun _ => .expect_bind hot (by simp) fun _ => ?_
  refine (safe_expressionList hot hexpr _).bind fun items last hle => ?_
  exact .expect_bind hot (by simp) fun _ => .pure (by omega)

omit hot in
theorem safe_inputs (count pos : Nat) :
    Safe tape pos (inputs expression count) fun _ stop => pos + count ≤ stop := by
  induction count generalizing pos with
  | zero => exact .pure (Nat.le_refl pos)
  | succ count ih =>
      refine (hexpr 0 pos).bind fun first mid hlt => ?_
      exact (ih mid).bind fun rest stop hle => .pure (by omega)

theorem forward_outputForm (more : Nat) : Forward tape (outputForm expression more) := by
  intro pos
  refine (safe_inputs hexpr (more + 1) pos).bind fun before mid hle => ?_
  refine (forward_outputMode hot mid).bind fun mode at' hmode => ?_
  refine (forward_name hot at').bind fun first last hfirst => ?_
  exact (safe_moreOutputs hot more last).bind fun others stop hothers => .pure (by omega)

theorem forward_renameForm : Forward tape (renameForm expression) := by
  intro pos
  refine (hexpr 0 pos).bind fun e mid hlt => .expect_bind hot (by simp) fun _ => ?_
  exact (forward_name hot _).bind fun target stop hle => .pure (by omega)

theorem forward_compareForm : Forward tape (compareForm expression) := by
  intro pos
  refine (forward_name hot pos).bind fun field mid hlt => .peek_bind ?_
  split
  · exact .miss _
  · next op hop =>
    refine .advance_bind hot (ne_finish_of hop nofun) fun _ => ?_
    exact (hexpr 0 _).bind fun e stop hle => .pure (by omega)

omit hot in
theorem forward_bareForm : Forward tape (bareForm expression) :=
  fun pos => (hexpr 0 pos).bind fun _ _ hlt => .pure hlt

include hop

omit hexpr in
theorem forward_notForm : Forward tape (notForm operation) := by
  intro pos
  refine .expect_bind hot (by simp) fun _ => ?_
  exact (hop notStrength _).bind fun inner stop hlt => .pure (by omega)

omit hexpr in
theorem forward_parenForm : Forward tape (parenForm operation) := by
  intro pos
  refine .expect_bind hot (by simp) fun _ => ?_
  refine (hop 0 _).bind fun inner mid hlt => ?_
  exact .expect_bind hot (by simp) fun _ => .pure (by omega)

theorem forward_simpleOperation : Forward tape (simpleOperation expression operation) := by
  intro pos
  refine .firstOf ?_
  simp only [List.mem_append, List.mem_map, forms, List.mem_cons, List.not_mem_nil, or_false]
  rintro rule (⟨form, hform, rfl⟩ | rfl)
  · refine forward_spanned ?_ pos
    rcases hform with rfl | rfl | rfl | rfl | rfl | rfl | rfl | rfl | rfl | rfl | rfl
    · exact forward_likeForm hot hexpr
    · exact forward_withinForm hot hexpr
    · exact forward_notForm hot hop
    · exact forward_outputForm hot hexpr 0
    · exact forward_outputForm hot hexpr 1
    · exact forward_outputForm hot hexpr 2
    · exact forward_groupingForm hot
    · exact forward_renameForm hot hexpr
    · exact forward_compareForm hot hexpr
    · exact forward_bareForm hexpr
    · exact forward_parenForm hot hop
  · exact .miss _

omit hexpr in
theorem safe_connectiveStep {least : Nat} {lhs : Operation} {first pos : Nat} (hfirst : first < pos) :
    Safe tape pos (connectiveStep operation least lhs)
      (Safe.TurnsOn (fun _ stop => first < stop) pos lhs) := by
  have hstay : Safe.TurnsOn (fun (_ : Operation) stop => first < stop) pos lhs none pos :=
    ⟨by simp, fun _ => hfirst⟩
  refine .peek_bind ?_
  split
  · exact .pure hstay
  · next connective hconnective =>
    split
    · exact .pure hstay
    · refine .advance_bind hot (ne_finish_of hconnective nofun) fun _ => ?_
      refine (hop _ _).bind fun rhs stop hlt => .pure ⟨?_, by simp⟩
      rintro _ ⟨⟩
      omega

theorem forward_connectives (least : Nat) : Forward tape (connectives expression operation least) := by
  intro pos
  refine (forward_simpleOperation hot hexpr hop pos).bind fun first mid hlt => ?_
  exact .repeatStep (fun lhs at' hat => safe_connectiveStep hot hop hat) hlt

end Operations

-- The rules of a level move forward.
structure Level.Forward (tape : Tape) (level : Level) : Prop where
  operation : ∀ least, Grammar.Forward tape (level.operation least)
  expression : ∀ least, Grammar.Forward tape (level.expression least)
  subquery : Grammar.Forward tape level.subquery

section Stages

variable {tape : Tape} (hot : tape.Orderly)

include hot

theorem forward_command : Forward tape command := by
  intro pos
  refine .peek_bind ?_
  split
  · next hcommand =>
    exact .advance_bind hot (ne_finish_of hcommand nofun) fun _ => .pure (Nat.lt_succ_self pos)
  · exact .miss _

variable {level : Level} (hlevel : level.Forward tape)

include hlevel

theorem forward_body : Forward tape (body level) := by
  intro pos
  refine .bind (P := fun found stop => pos ≤ stop ∧ (found ≠ [] → pos < stop)) (.repeatStep ?_
    ⟨Nat.le_refl pos, by simp⟩) ?_
  · rintro found at' ⟨hle, hlt⟩
    refine .peek_bind ?_
    split
    · refine (hlevel.operation 0 at').bind fun o mid hmid => ?_
      have hturn : ∀ stop, mid ≤ stop → Safe.TurnsOn (fun found stop => pos ≤ stop ∧
          (found ≠ [] → pos < stop)) at' found (some (o :: found)) stop := by
        refine fun stop hstop => ⟨?_, by simp⟩
        rintro _ ⟨⟩
        exact ⟨by omega, by omega, fun _ => by omega⟩
      exact .eat_bind hot (by simp) (.pure (hturn _ (Nat.le_succ mid))) (.pure (hturn _ (Nat.le_refl mid)))
    · exact .pure ⟨by simp, fun _ => ⟨hle, hlt⟩⟩
  rintro operations mid ⟨hle, hlt⟩
  refine .bind (P := fun found stop => mid ≤ stop ∧ (found ≠ none → mid < stop)) ?_ ?_
  · refine .peek_bind ?_
    split
    · exact (hlevel.subquery mid).bind fun inner stop hlt => .pure ⟨by omega, fun _ => hlt⟩
    · exact .pure ⟨Nat.le_refl mid, by simp⟩
  rintro inner stop ⟨hinner, hfound⟩
  split
  · exact .miss _
  · next hsome =>
    refine .pure ?_
    rcases operations with _ | ⟨o, operations⟩
    · have hsubquery := hfound fun hnone => hsome (by simp [hnone])
      omega
    · have hoperation := hlt (List.cons_ne_nil o operations)
      omega

theorem forward_openingWithCommand : Forward tape (openingWithCommand level) := by
  intro pos
  refine .peek_bind ?_
  split
  · refine (forward_command hot pos).bind fun c mid hlt => ?_
    exact (forward_body hot hlevel mid).bind fun found stop hbody => .pure (by omega)
  · exact .refuse

theorem forward_opening : Forward tape (opening level) := by
  intro pos
  refine .position_bind (.bind (P := fun _ mid => pos ≤ mid) ?_ fun piped mid hle => ?_)
  · refine .peek_bind ?_
    split
    · next hpipe => exact .advance_bind hot (by simp [hpipe]) fun _ => .pure (Nat.le_succ pos)
    · exact .pure (Nat.le_refl pos)
  refine .bind (P := fun _ stop => mid < stop) (.firstOf ?_) ?_
  · simp only [List.mem_cons, List.not_mem_nil, or_false]
    rintro rule (rfl | rfl)
    · exact forward_openingWithCommand hot hlevel mid
    · exact (forward_body hot hlevel mid).bind fun found stop hlt => .pure hlt
  · rintro ⟨command, operations, subquery⟩ stop hlt
    exact .spanFrom_bind (by omega) (.pure (by omega))

theorem forward_stage : Forward tape (stage level) := by
  intro pos
  refine .position_bind ((forward_command hot pos).bind fun c mid hlt => ?_)
  refine (forward_body hot hlevel mid).bind ?_
  rintro ⟨operations, subquery⟩ stop hbody
  exact .spanFrom_bind (by omega) (.pure (by omega))

theorem forward_bracketed : Forward tape (bracketed level) := by
  intro pos
  refine .position_bind (.expect_bind hot (by simp) fun _ => ?_)
  refine (forward_opening hot hlevel _).bind fun first mid hlt => ?_
  refine .bind (P := fun _ stop => mid ≤ stop) (.repeatStep ?_ (Nat.le_refl mid)) ?_
  · intro found at' hle
    refine .eat_bind hot (by simp) ?_ (.pure ⟨by simp, fun _ => hle⟩)
    refine (forward_stage hot hlevel _).bind fun s stop hlt => .pure ⟨?_, by simp⟩
    rintro _ ⟨⟩
    omega
  · intro later last hle
    refine .expect_bind hot (by simp) fun _ => ?_
    exact .spanFrom_bind (by omega) (.pure (by omega))

end Stages

theorem level_forward {tape : Tape} (hot : tape.Orderly) (keep : Bool) (room : Nat) :
    (level keep room).Forward tape := by
  induction room with
  | zero =>
      refine ⟨fun least pos => .enter .refuse, fun least pos => ?_, fun pos => .enter .refuse⟩
      cases keep with
      | true => exact .remembered (.enter .refuse)
      | false => exact .enter .refuse
  | succ room ih =>
      refine ⟨fun least pos => .enter (forward_connectives hot ih.expression ih.operation least pos),
        fun least pos => ?_, fun pos => .enter (forward_bracketed hot ih pos)⟩
      have hoperators := forward_operators hot ih.expression least pos
      cases keep with
      | true => exact .remembered (.enter (.record hoperators))
      | false => exact .enter hoperators

end SearchPipeline.Grammar
