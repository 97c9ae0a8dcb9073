import Mathlib.Data.List.Forall2
import SearchPipeline.Proofs.Grammar.Agreement

namespace SearchPipeline.Grammar

open Rule

-- The two rules of a nonterminal read the same, up to names and places.
abbrev SameExprs (carry : Carry) (tape other : Tape) (rule rule' : Nat → Rule Expr) : Prop :=
  ∀ least pos, Agrees carry tape other pos (Becomes (Expr.relabel carry.relabel)) (rule least)
    (rule' least)

section

variable {carry : Carry} {tape other : Tape} (hc : tape.Carries carry other)

include hc

theorem name_agrees (pos : Nat) :
    Agrees carry tape other pos (Becomes (Name.relabel carry.relabel)) name name := by
  refine Agrees.peek_bind hc rfl ?_
  cases huse : nameUse? (tape.kind (pos + carry.here)) with
  | none => exact .miss _
  | some use =>
      have hfinish : tape.kind (pos + carry.here) ≠ .finish := by
        intro h
        rw [h] at huse
        cases huse
      intro hpos
      refine Agrees.advance_bind hc hfinish (.pure ?_) hpos
      simp only [Becomes, Name.relabel, hc.name pos use huse, hc.mark_index hpos]
      rfl

theorem literal_agrees {make : String → Span → Value} (pos : Nat)
    (hkind : tape.kind (pos + carry.here) ≠ .word)
    (hfinish : tape.kind (pos + carry.here) ≠ .finish)
    (hmake : ∀ text span, (make text span).relabel carry.relabel =
      make text (carry.relabel.place span)) :
    Agrees carry tape other pos (Becomes (Value.relabel carry.relabel)) (literal make)
      (literal make) := by
  intro hpos
  refine Agrees.advance_bind hc hfinish (.pure ?_) hpos
  simp only [Becomes, hmake, hc.text pos hkind hfinish, hc.mark_index hpos, carry.place_single]

theorem value_agrees (pos : Nat) :
    Agrees carry tape other pos (Becomes (Value.relabel carry.relabel)) value value := by
  refine Agrees.peek_bind hc rfl ?_
  refine .ite (fun hkind => ?_) fun _ => ?_
  · refine literal_agrees hc pos ?_ ?_ fun _ _ => rfl
    all_goals rcases hkind with h | h <;> simp [h]
  refine .ite (fun hkind => ?_) fun _ => ?_
  · exact literal_agrees hc pos (by simp [hkind]) (by simp [hkind]) fun _ _ => rfl
  refine .ite (fun hkind => ?_) fun _ => ?_
  · refine .bind (name_agrees hc pos) ?_
    rintro n _ mid rfl
    exact .pure rfl
  refine Agrees.peekAt_bind hc (by simp) (fun _ => ?_) fun hfinish kind kind' => ?_
  · refine .ite (fun hkinds => ?_) fun _ => ?_
    · obtain ⟨hsign, hnumber⟩ := hkinds
      rw [Nat.add_right_comm] at hnumber
      have hfirst : ∀ kind ∈ [Kind.word, .finish], tape.kind (pos + carry.here) ≠ kind := by
        rcases hsign with h | h <;> simp [h]
      have hword := hfirst .word (by decide)
      have hfinish := hfirst .finish (by decide)
      refine .position_bind fun hpos => .advance_bind hc hfinish ?_
      refine .advance_bind hc (by simp [hnumber]) (.spanFrom_bind hc hpos (.pure ?_))
      simp only [Becomes, Value.relabel, hc.text pos hword hfinish,
        hc.text (pos + 1) (by simp [hnumber]) (by simp [hnumber])]
    refine .ite (fun hkind => ?_) fun _ => .miss _
    exact literal_agrees hc pos (by simp [hkind]) (by simp [hkind]) fun _ _ => rfl
  · rw [hfinish]
    exact .miss _

section

variable {expression expression' : Nat → Rule Expr}
  (hexpr : SameExprs carry tape other expression expression')

include hexpr

theorem expressionList_agrees (pos : Nat) :
    Agrees carry tape other pos (Becomes (List.map (Expr.relabel carry.relabel)))
      (expressionList expression) (expressionList expression') := by
  refine Agrees.peek_bind hc rfl (.ite (fun _ => .pure rfl) fun _ => ?_)
  refine .bind (hexpr 0 pos) ?_
  rintro first _ mid rfl
  refine .bind (.repeatStep hc (I := Becomes (List.map (Expr.relabel carry.relabel))) ?_ rfl) ?_
  · rintro found _ at' rfl
    refine .bind (.eat hc .comma (by decide) nofun) ?_
    rintro taken _ mid ⟨rfl, rfl⟩
    refine .ite (fun htaken => ?_) fun _ => .pure (.enough rfl)
    refine .bind (hexpr 0 _).forward ?_
    rintro expr _ stop ⟨rfl, hle⟩
    rw [if_pos htaken] at hle
    exact .pure (.more rfl hle)
  · rintro rest _ stop rfl
    refine .pure ?_
    simp only [Becomes, List.map_cons, List.map_reverse]

theorem call_agrees (pos : Nat) (hfunction : (tape.kind (pos + carry.here)).isFunction = true) :
    Agrees carry tape other pos (Becomes (Expr.relabel carry.relabel)) (call expression)
      (call expression') := by
  have hkind : ∀ kind ∈ [Kind.word, .finish], tape.kind (pos + carry.here) ≠ kind := by
    have hnone : ∀ kind ∈ [Kind.word, .finish], kind.isFunction = false := by decide
    rintro kind hmem rfl
    rw [hnone _ hmem] at hfunction
    cases hfunction
  have hfinish := hkind .finish (by decide)
  refine .position_bind fun hpos => .advance_bind hc hfinish ?_
  refine .bind (.expect hc .openParen (by decide)) ?_
  intro _ _ mid _
  refine .bind (expressionList_agrees hc hexpr mid) ?_
  rintro args _ last rfl
  refine .bind (.expect hc .closeParen (by decide)) ?_
  intro _ _ stop _
  refine .spanFrom_bind hc hpos (.pure ?_)
  simp only [Becomes, Expr.relabel, relabelExprs_eq, FunctionName.relabel,
    hc.text pos (hkind .word (by decide)) hfinish, hc.mark_index hpos, carry.place_single]

theorem callAhead_agrees (pos : Nat) :
    Agrees carry tape other pos (Becomes (Expr.relabel carry.relabel)) (callAhead expression)
      (callAhead expression') := by
  refine Agrees.peek_bind hc rfl ?_
  refine Agrees.peekAt_bind hc (by simp) (fun _ => ?_) fun hfinish kind kind' => ?_
  · exact .ite (fun h => call_agrees hc hexpr pos h.1) fun _ => .refuse
  · rw [hfinish]
    exact .refuse

theorem parenthesised_agrees (pos : Nat) :
    Agrees carry tape other pos (Becomes (Expr.relabel carry.relabel)) (parenthesised expression)
      (parenthesised expression') := by
  refine Agrees.peek_bind hc rfl (.ite (fun hkind => ?_) fun _ => .refuse)
  refine .position_bind fun hpos => .advance_bind hc (by simp [hkind]) (.bind (hexpr 0 _) ?_)
  rintro inner _ mid rfl
  refine .bind (.expect hc .closeParen (by decide)) ?_
  intro _ _ stop _
  refine .spanFrom_bind hc hpos (.pure ?_)
  simp only [Becomes, Expr.relabel]

-- The star that closes a term is looked at for what it is attached to, and no other token is.
theorem containsTerm_agrees (pos : Nat) (hkind : tape.kind (pos + carry.here) = .star) :
    Agrees carry tape other pos (Becomes (Expr.relabel carry.relabel)) (containsTerm expression)
      (containsTerm expression') := by
  refine .position_bind fun hpos => .advance_bind hc (by simp [hkind]) ?_
  refine .bind (hexpr starStrength _) ?_
  rintro inner _ mid rfl
  refine Agrees.peek_bind hc rfl (.look_bind ?_)
  by_cases hstar : tape.kind (mid + carry.here) = .star
  · rw [hc.left mid hstar]
    refine .ite (fun _ => ?_) fun _ => .refuse
    refine .advance_bind hc (by simp [hstar]) (.spanFrom_bind hc hpos (.pure ?_))
    simp only [Becomes, Expr.relabel]
  · rw [if_neg fun h => hstar h.1, if_neg fun h => hstar h.1]
    exact .refuse

theorem wildcards_agrees (pos : Nat) :
    Agrees carry tape other pos (Becomes (Expr.relabel carry.relabel)) (wildcards expression)
      (wildcards expression') := by
  refine Agrees.peek_bind hc rfl (.ite (fun hkind => ?_) fun _ => .refuse)
  have hfinish : tape.kind (pos + carry.here) ≠ .finish := by simp [hkind]
  refine .firstOf (.cons (containsTerm_agrees hc hexpr pos hkind) (.cons ?_ (.cons ?_ .nil)))
  · refine .position_bind fun hpos => .advance_bind hc hfinish (.bind (hexpr starStrength _) ?_)
    rintro inner _ mid rfl
    refine .spanFrom_bind hc hpos (.pure ?_)
    simp only [Becomes, Expr.relabel]
  · refine .position_bind fun hpos => .advance_bind hc hfinish (.spanFrom_bind hc hpos (.pure ?_))
    simp only [Becomes, Expr.relabel]

omit hexpr in
theorem path_agrees (pos : Nat) :
    Agrees carry tape other pos (Becomes (Expr.relabel carry.relabel)) path path := by
  refine .position_bind fun hpos =>
    .bind (.repeatStep hc (I := Becomes (List.map (Name.relabel carry.relabel))) ?_ rfl) ?_
  · rintro found _ at' rfl
    refine Agrees.peek_bind hc rfl (.peekAt_bind hc rfl (fun _ => ?_) fun hfinish kind kind' => ?_)
    · refine .ite (fun hkinds => ?_) fun _ => .pure (.enough rfl)
      refine .advance_bind hc (by simp [hkinds.1]) (.bind (name_agrees hc _).forward ?_)
      rintro n _ mid ⟨rfl, hle⟩
      exact .pure (.more rfl hle)
    · rw [hfinish]
      exact .pure (.enough rfl)
  · rintro names _ mid rfl
    cases names with
    | nil => exact .refuse
    | cons first rest =>
        refine .spanFrom_bind hc hpos (.pure ?_)
        simp only [Becomes, Expr.relabel, List.map_reverse]

theorem primary_agrees (pos : Nat) :
    Agrees carry tape other pos (Becomes (Expr.relabel carry.relabel)) (primary expression)
      (primary expression') := by
  refine .firstOf (.cons (callAhead_agrees hc hexpr pos) (.cons (parenthesised_agrees hc hexpr pos)
    (.cons (wildcards_agrees hc hexpr pos) (.cons (path_agrees hc pos) (.cons ?_ .nil)))))
  refine .bind (value_agrees hc pos) ?_
  rintro v _ mid rfl
  refine .pure ?_
  simp only [Becomes, Expr.relabel]

theorem operand_agrees (op : ArithOp) (lhs : Expr) (pos : Nat)
    (hfinish : tape.kind (pos + carry.here) ≠ .finish) :
    Agrees carry tape other pos
      (fun e e' stop => e' = e.relabel carry.relabel ∧ pos < stop) (operand expression op lhs)
      (operand expression' op (lhs.relabel carry.relabel)) := by
  refine .advance_bind hc hfinish (.bind (hexpr op.rightStrength _).forward ?_)
  rintro rhs _ mid ⟨rfl, hle⟩
  refine .pure ⟨?_, hle⟩
  simp only [Expr.relabel]

-- One more operator, on both tapes or on neither.
abbrev StepsExpr (carry : Carry) (lhs : Expr) (pos : Nat) :
    Option Expr → Option Expr → Nat → Prop :=
  Steps (Becomes (Expr.relabel carry.relabel)) lhs (lhs.relabel carry.relabel) pos

theorem starStep_agrees (least : Nat) (lhs : Expr) (pos : Nat)
    (hstar : tape.kind (pos + carry.here) = .star) :
    Agrees carry tape other pos (StepsExpr carry lhs pos) (starStep expression least lhs)
      (starStep expression' least (lhs.relabel carry.relabel)) := by
  have hfinish : tape.kind (pos + carry.here) ≠ .finish := by simp [hstar]
  refine .look_bind (.look_bind ?_)
  rw [hc.left pos hstar, hc.right pos hstar]
  refine .ite (fun _ => .pure (.enough rfl)) fun _ => ?_
  -- without a product, the star may still be the mark at the end of `term*`
  have hafter : ∀ mark : Bool, Agrees carry tape other pos (StepsExpr carry lhs pos)
      (if mark then do
        let star ← advance
        return some (Expr.startsWith lhs ⟨lhs.span.start, star.index + 1⟩)
      else return none)
      (if mark then do
        let star ← advance
        return some (Expr.startsWith (lhs.relabel carry.relabel)
          ⟨(lhs.relabel carry.relabel).span.start, star.index + 1⟩)
      else return none) := by
    refine fun mark => .ite (fun _ hpos => ?_) fun _ => .pure (.enough rfl)
    refine Agrees.advance_bind hc hfinish (.pure (.more ?_ (Nat.lt_succ_self pos))) hpos
    simp only [Becomes, Expr.relabel, Expr.span_relabel carry.joins, hc.mark_index hpos]
    rfl
  refine .ite (fun _ => ?_) fun _ => hafter _
  refine .attempt_bind (operand_agrees hc hexpr .mult lhs pos hfinish) ?_ (hafter _)
  rintro product _ mid ⟨rfl, hlt⟩
  exact .pure (.more rfl hlt)

theorem operatorStep_agrees (least : Nat) (lhs : Expr) (pos : Nat) :
    Agrees carry tape other pos (StepsExpr carry lhs pos) (operatorStep expression least lhs)
      (operatorStep expression' least (lhs.relabel carry.relabel)) := by
  refine Agrees.peek_bind hc rfl ?_
  refine .ite (fun hstar => starStep_agrees hc hexpr least lhs pos hstar) ?_
  intro _
  cases hop : ArithOp.ofKind? (tape.kind (pos + carry.here)) with
  | none => exact .pure (.enough rfl)
  | some op =>
      have hfinish : tape.kind (pos + carry.here) ≠ .finish := by
        intro h
        rw [h] at hop
        cases hop
      refine .ite (fun _ => .pure (.enough rfl)) fun _ => ?_
      exact .attempt ((operand_agrees hc hexpr op lhs pos hfinish).mono
        fun _ _ _ h => .more h.1 h.2) (.enough rfl)

theorem operators_agrees : SameExprs carry tape other (operators expression)
    (operators expression') := by
  intro least pos
  refine .bind (primary_agrees hc hexpr pos) ?_
  rintro first _ mid rfl
  refine .repeatStep hc ?_ rfl
  rintro lhs _ at' rfl
  exact operatorStep_agrees hc hexpr least lhs at'

end

-- A form still lacks its span, so it is compared on every span.
abbrev SameForm (carry : Carry) (make make' : Span → Operation) (_ : Nat) : Prop :=
  ∀ span, make' (carry.relabel.place span) = (make span).relabel carry.relabel

theorem spanned_agrees {form form' : Rule (Span → Operation)} (pos : Nat)
    (h : Agrees carry tape other pos (SameForm carry) form form') :
    Agrees carry tape other pos (Becomes (Operation.relabel carry.relabel)) (spanned form)
      (spanned form') := by
  refine .position_bind fun hpos => .bind h ?_
  intro make make' mid hmake
  exact .spanFrom_bind hc hpos (.pure (hmake _))

theorem outputMode_agrees (pos : Nat) :
    Agrees carry tape other pos (Becomes id) outputMode outputMode := by
  refine .bind (.eat hc .output (by decide) nofun) ?_
  rintro replaces _ mid ⟨rfl, -⟩
  refine .ite (fun _ => .pure rfl) fun _ => ?_
  refine .bind (.eat hc .outputNew (by decide) nofun) ?_
  rintro fills _ stop ⟨rfl, -⟩
  refine .ite (fun _ => .pure rfl) fun _ => ?_
  refine .attempt_bind (P := fun _ _ _ => True) (.miss _) ?_ (.miss _)
  intro _ _ _ _
  exact .miss _

theorem moreOutputs_agrees (count pos : Nat) :
    Agrees carry tape other pos (Becomes (List.map (Name.relabel carry.relabel)))
      (moreOutputs count) (moreOutputs count) := by
  induction count generalizing pos with
  | zero => exact .pure rfl
  | succ count ih =>
      refine .bind (.expect hc .comma (by decide)) ?_
      intro _ _ mid _
      refine .bind (name_agrees hc mid) ?_
      rintro first _ last rfl
      refine .bind (ih last) ?_
      rintro rest _ stop rfl
      exact .pure rfl

theorem groupingStep_agrees (found : List Name) (pos : Nat) :
    Agrees carry tape other pos
      (Steps (Becomes (List.map (Name.relabel carry.relabel))) found
        (found.map (Name.relabel carry.relabel)) pos)
      (groupingStep found) (groupingStep (found.map (Name.relabel carry.relabel))) := by
  have hmore : ∀ mid, pos ≤ mid → Agrees carry tape other mid
      (Steps (Becomes (List.map (Name.relabel carry.relabel))) found
        (found.map (Name.relabel carry.relabel)) pos)
      (do return some ((← name) :: found))
      (do return some ((← name) :: found.map (Name.relabel carry.relabel))) := by
    intro mid hle
    refine .bind ((name_agrees hc mid).ensuring (name_ensures hc.orderly _)) ?_
    rintro n _ stop ⟨rfl, hname⟩
    have hlt := hname.lt
    exact .pure (.more rfl (by omega))
  refine Agrees.peek_bind hc rfl (.peekAt_bind hc rfl (fun _ => ?_) fun hfinish kind kind' => ?_)
  · refine .ite (fun hkinds => ?_) fun _ => ?_
    · exact .advance_bind hc (by simp [hkinds.1]) (hmore _ (Nat.le_succ pos))
    · exact Agrees.peek_bind hc rfl (.ite (fun _ => hmore pos (Nat.le_refl pos)) fun _ =>
        .pure (.enough rfl))
  · rw [hfinish]
    exact Agrees.peek_bind hc rfl (.ite (fun _ => hmore pos (Nat.le_refl pos)) fun _ =>
      .pure (.enough rfl))

theorem groupingForm_agrees (pos : Nat) :
    Agrees carry tape other pos (SameForm carry) groupingForm groupingForm := by
  refine .bind (.expect hc .grouping (by decide)) ?_
  intro _ _ mid _
  refine .bind (name_agrees hc mid) ?_
  rintro first _ last rfl
  refine .bind (.repeatStep hc (I := Becomes (List.map (Name.relabel carry.relabel))) ?_ rfl) ?_
  · rintro found _ at' rfl
    exact groupingStep_agrees hc found at'
  · rintro names _ stop rfl
    refine .pure fun span => ?_
    simp only [Operation.relabel, List.map_reverse]

section

variable {expression expression' : Nat → Rule Expr} {operation operation' : Nat → Rule Operation}
  (hexpr : SameExprs carry tape other expression expression')
  (hop : ∀ least pos, Agrees carry tape other pos (Becomes (Operation.relabel carry.relabel))
    (operation least) (operation' least))

include hexpr

theorem likeForm_agrees (pos : Nat) :
    Agrees carry tape other pos (SameForm carry) (likeForm expression) (likeForm expression') := by
  refine .bind (hexpr 0 pos) ?_
  rintro expr _ mid rfl
  refine .bind (.expect hc .like (by decide)) ?_
  intro _ _ last _
  refine .bind (value_agrees hc last) ?_
  rintro pattern _ stop rfl
  exact .pure fun _ => rfl

theorem withinForm_agrees (pos : Nat) :
    Agrees carry tape other pos (SameForm carry) (withinForm expression)
      (withinForm expression') := by
  refine .bind (hexpr 0 pos) ?_
  rintro expr _ mid rfl
  refine .bind (.expect hc .within (by decide)) ?_
  intro _ _ _ _
  refine .bind (.expect hc .openParen (by decide)) ?_
  intro _ _ inside _
  refine .bind (expressionList_agrees hc hexpr inside) ?_
  rintro items _ last rfl
  refine .bind (.expect hc .closeParen (by decide)) ?_
  intro _ _ _ _
  exact .pure fun _ => rfl

omit hc in
theorem inputs_agrees (count pos : Nat) :
    Agrees carry tape other pos (Becomes (List.map (Expr.relabel carry.relabel)))
      (inputs expression count) (inputs expression' count) := by
  induction count generalizing pos with
  | zero => exact .pure rfl
  | succ count ih =>
      refine .bind (hexpr 0 pos) ?_
      rintro first _ mid rfl
      refine .bind (ih mid) ?_
      rintro rest _ stop rfl
      exact .pure rfl

theorem outputForm_agrees (more pos : Nat) :
    Agrees carry tape other pos (SameForm carry) (outputForm expression more)
      (outputForm expression' more) := by
  refine .bind (inputs_agrees hexpr (more + 1) pos) ?_
  rintro before _ mid rfl
  refine .bind (outputMode_agrees hc mid) ?_
  rintro mode _ last rfl
  refine .bind (name_agrees hc last) ?_
  rintro first _ behind rfl
  refine .bind (moreOutputs_agrees hc more behind) ?_
  rintro others _ stop rfl
  exact .pure fun _ => rfl

theorem renameForm_agrees (pos : Nat) :
    Agrees carry tape other pos (SameForm carry) (renameForm expression)
      (renameForm expression') := by
  refine .bind (hexpr 0 pos) ?_
  rintro expr _ mid rfl
  refine .bind (.expect hc .aliasing (by decide)) ?_
  intro _ _ last _
  refine .bind (name_agrees hc last) ?_
  rintro target _ stop rfl
  exact .pure fun _ => rfl

theorem compareForm_agrees (pos : Nat) :
    Agrees carry tape other pos (SameForm carry) (compareForm expression)
      (compareForm expression') := by
  refine .bind (name_agrees hc pos) ?_
  rintro field _ mid rfl
  refine Agrees.peek_bind hc rfl ?_
  cases hop : CompareOp.ofKind? (tape.kind (mid + carry.here)) with
  | none => exact .miss _
  | some op =>
      have hfinish : tape.kind (mid + carry.here) ≠ .finish := by
        intro h
        rw [h] at hop
        cases hop
      refine .advance_bind hc hfinish (.bind (hexpr 0 _) ?_)
      rintro expr _ stop rfl
      exact .pure fun _ => rfl

omit hc in
theorem bareForm_agrees (pos : Nat) :
    Agrees carry tape other pos (SameForm carry) (bareForm expression) (bareForm expression') := by
  refine .bind (hexpr 0 pos) ?_
  rintro expr _ stop rfl
  exact .pure fun _ => rfl

include hop

omit hexpr in
theorem notForm_agrees (pos : Nat) :
    Agrees carry tape other pos (SameForm carry) (notForm operation) (notForm operation') := by
  refine .bind (.expect hc .neg (by decide)) ?_
  intro _ _ mid _
  refine .bind (hop notStrength mid) ?_
  rintro inner _ stop rfl
  exact .pure fun _ => rfl

omit hexpr in
theorem parenForm_agrees (pos : Nat) :
    Agrees carry tape other pos (SameForm carry) (parenForm operation) (parenForm operation') := by
  refine .bind (.expect hc .openParen (by decide)) ?_
  intro _ _ mid _
  refine .bind (hop 0 mid) ?_
  rintro inner _ last rfl
  refine .bind (.expect hc .closeParen (by decide)) ?_
  intro _ _ _ _
  exact .pure fun _ => rfl

theorem forms_agree (pos : Nat) :
    List.Forall₂ (Agrees carry tape other pos (SameForm carry)) (forms expression operation)
      (forms expression' operation') :=
  .cons (likeForm_agrees hc hexpr pos) <|
    .cons (withinForm_agrees hc hexpr pos) <|
    .cons (notForm_agrees hc hop pos) <|
    .cons (outputForm_agrees hc hexpr 0 pos) <|
    .cons (outputForm_agrees hc hexpr 1 pos) <|
    .cons (outputForm_agrees hc hexpr 2 pos) <|
    .cons (groupingForm_agrees hc pos) <|
    .cons (renameForm_agrees hc hexpr pos) <|
    .cons (compareForm_agrees hc hexpr pos) <|
    .cons (bareForm_agrees hexpr pos) <|
    .cons (parenForm_agrees hc hop pos) .nil

theorem simpleOperation_agrees (pos : Nat) :
    Agrees carry tape other pos (Becomes (Operation.relabel carry.relabel))
      (simpleOperation expression operation) (simpleOperation expression' operation') := by
  apply Agrees.firstOf
  refine List.rel_append ?_ ?_
  · rw [List.forall₂_map_left_iff, List.forall₂_map_right_iff]
    exact (forms_agree hc hexpr hop pos).imp fun _ _ h => spanned_agrees hc pos h
  · exact .cons (.miss _) .nil

omit hexpr in
theorem connectiveStep_agrees (least : Nat) (lhs : Operation) (pos : Nat) :
    Agrees carry tape other pos
      (Steps (Becomes (Operation.relabel carry.relabel)) lhs (lhs.relabel carry.relabel) pos)
      (connectiveStep operation least lhs)
      (connectiveStep operation' least (lhs.relabel carry.relabel)) := by
  refine Agrees.peek_bind hc rfl ?_
  cases hconnective : Connective.ofKind? (tape.kind (pos + carry.here)) with
  | none => exact .pure (.enough rfl)
  | some connective =>
      have hfinish : tape.kind (pos + carry.here) ≠ .finish := by
        intro h
        rw [h] at hconnective
        cases hconnective
      refine .ite (fun _ => .pure (.enough rfl)) fun _ => ?_
      refine .advance_bind hc hfinish (.bind (hop _ _).forward ?_)
      rintro rhs _ stop ⟨rfl, hle⟩
      refine .pure (.more ?_ hle)
      cases connective <;> rfl

theorem connectives_agrees (least pos : Nat) :
    Agrees carry tape other pos (Becomes (Operation.relabel carry.relabel))
      (connectives expression operation least) (connectives expression' operation' least) := by
  refine .bind (simpleOperation_agrees hc hexpr hop pos) ?_
  rintro first _ mid rfl
  refine .repeatStep hc ?_ rfl
  rintro lhs _ at' rfl
  exact connectiveStep_agrees hc hop least lhs at'

end

end

end SearchPipeline.Grammar
