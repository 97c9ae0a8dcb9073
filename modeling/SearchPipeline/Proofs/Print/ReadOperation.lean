import SearchPipeline.Proofs.Print.ReadExpression

namespace SearchPipeline

theorem CompareOp.isComparison_kind (op : CompareOp) : op.kind.isComparison = true := by
  cases op <;> rfl

theorem CompareOp.ofKind?_kind (op : CompareOp) : ofKind? op.kind = some op := by
  cases op <;> rfl

namespace Grammar

open Rule

section Trials

variable {β : Type} {tape : Tape} {pos blanks room : Nat} {text : String}
  {expression : Nat → Rule Expr}

theorem opens_of_isComparison {kind : Kind} (h : kind.isComparison = true) :
    opensValue kind = false ∧ kind ≠ .openParen ∧ kind ≠ .star ∧ kind ≠ .slash ∧
      ArithOp.ofKind? kind = none := by
  cases kind <;> first | exact absurd h (by decide) | decide

-- An expression tried at a position is stuck, or it is the name before a comparison, and at the
-- comparison no expression stands.
inductive Stumbles (tape : Tape) (expression : Nat → Rule Expr) (pos : Nat) : Prop where
  | stuck {stop : Nat} : Gives tape pos (expression 0) (.stuck stop) → Stumbles tape expression pos
  | compared {e : Expr} {stop behind : Nat} : tape.kind pos = .word →
      Gives tape pos (expression 0) (.done e stop) → (tape.kind stop).isComparison = true →
      Gives tape stop (expression 0) (.stuck behind) → Stumbles tape expression pos

theorem expression_stuck (hvalue : opensValue (tape.kind pos) = false)
    (hparen : ∃ stop, Gives tape pos (parenthesised (tier false room).expression) (.stuck stop))
    (hstar : tape.kind pos ≠ .star) (hslash : tape.kind pos ≠ .slash) :
    Gives tape pos ((tier false (room + 1)).expression 0) (.stuck pos) := by
  have hfunction : (tape.kind pos).isFunction = false := by
    simp only [opensValue, Kind.isName, Bool.or_eq_false_iff] at hvalue
    exact hvalue.1.2
  have hprimary := primary_of_value hfunction hparen hstar hslash (value_stuck hvalue).bind_stuck
  exact (Gives.bind_stuck hprimary).whileShallow

theorem stumbles_word (hot : tape.Orderly) (hname : tape.ShowsSign ⟨blanks, .word, text⟩ pos)
    (hcomparison : (tape.kind (pos + 1)).isComparison = true) :
    Stumbles tape (tier false (room + 1)).expression pos := by
  obtain ⟨hvalue, hopen, hstar, hslash, hquiet⟩ := opens_of_isComparison hcomparison
  have hkind : tape.kind pos = .word := hname.kind
  have hprimary : Gives tape pos (primary (tier false room).expression)
      (.done (.value (.name ⟨.field, text, .single (tape.index pos)⟩)) (pos + 1)) :=
    primary_leaf (by simp [hkind]) (value_word hot hname)
  have hgives : Gives tape pos ((tier false (room + 1)).expression 0)
      (.done (.value (.name ⟨.field, text, .single (tape.index pos)⟩)) (pos + 1)) :=
    (hprimary.climbs.gives (Nat.le_of_lt (hot.ends pos hname.inside))
      (operatorStep_declines (Tape.quiet_of_kind hquiet 0) _)).whileShallow
  exact .compared hkind hgives hcomparison
    (expression_stuck hvalue ⟨_, parenthesised_refuses hopen⟩ hstar hslash)

theorem stumbles_neg (hkind : tape.kind pos = .neg) :
    Stumbles tape (tier false (room + 1)).expression pos := by
  refine .stuck (expression_stuck ?_ ⟨pos, parenthesised_refuses ?_⟩ ?_ ?_) <;>
    rw [hkind] <;> decide

theorem stumbles_paren (hot : tape.Orderly) (hkind : tape.kind pos = .openParen)
    (hinner : Stumbles tape (tier false room).expression (pos + 1)) :
    Stumbles tape (tier false (room + 1)).expression pos := by
  have hinside : tape.kind pos ≠ .finish := by
    rw [hkind]
    decide
  have hparen : ∃ stop, Gives tape pos (parenthesised (tier false room).expression)
      (.stuck stop) := by
    have hopens : ∀ stop, Gives tape (pos + 1) (do
        let inner ← (tier false room).expression 0
        let _ ← expect .closeParen
        return Expr.paren inner (← spanFrom pos)) (.stuck stop) →
        Gives tape pos (parenthesised (tier false room).expression) (.stuck stop) := by
      intro stop hstuck
      refine Gives.peek_bind hkind ?_
      rw [if_pos rfl]
      exact Gives.position_bind (Gives.advance_bind hot hinside hstuck)
    cases hinner with
    | stuck hstuck => exact ⟨_, hopens _ hstuck.bind_stuck⟩
    | compared _ hdone hcomparison _ =>
        refine ⟨_, hopens _ (hdone.bind (Gives.expect_stuck ?_))⟩
        intro hclose
        rw [hclose] at hcomparison
        cases hcomparison
  refine .stuck (expression_stuck ?_ hparen ?_ ?_) <;> rw [hkind] <;> decide

end Trials

section Forms

variable {β : Type} {tape : Tape} {pos stop : Nat} {expression : Nat → Rule Expr}
  {operation : Nat → Rule Operation}

-- A rule that begins with an expression is stuck there if it wants something else than a comparison
-- behind it.
theorem Stumbles.bind_expect {next : Expr → Mark → Rule β} {kind : Kind}
    (h : Stumbles tape expression pos) (hkind : kind.isComparison = false) :
    ∃ stop, Gives tape pos (expression 0 >>= fun e => expect kind >>= next e) (.stuck stop) := by
  cases h with
  | stuck hstuck => exact ⟨_, hstuck.bind_stuck⟩
  | compared _ hdone hcomparison _ =>
      refine ⟨_, hdone.bind (Gives.expect_stuck ?_)⟩
      intro hsame
      rw [hsame, hkind] at hcomparison
      cases hcomparison

theorem outputMode_stuck (h : (tape.kind pos).isComparison = true) :
    Gives tape pos outputMode (.stuck pos) := by
  have hother : ∀ kind : Kind, kind.isComparison = false → tape.kind pos ≠ kind := by
    rintro kind hkind rfl
    rw [h] at hkind
    cases hkind
  refine Gives.eat_other (hother .output rfl) (Gives.eat_other (hother .outputNew rfl) ?_)
  exact (Gives.attempt_stuck (Gives.miss _)).bind (.miss _)

theorem outputForm_stuck (h : Stumbles tape expression pos) (more : Nat) :
    ∃ stop, Gives tape pos (outputForm expression more) (.stuck stop) := by
  cases h with
  | stuck hstuck => exact ⟨_, hstuck.bind_stuck.bind_stuck⟩
  | @compared e stop _ _ hdone hcomparison hbehind =>
      cases more with
      | zero =>
          have hinputs : Gives tape pos (inputs expression 1) (.done [e] stop) :=
            hdone.bind (Gives.bind (Gives.pure []) (Gives.pure [e]))
          exact ⟨_, hinputs.bind (outputMode_stuck hcomparison).bind_stuck⟩
      | succ more => exact ⟨_, (hdone.bind hbehind.bind_stuck.bind_stuck).bind_stuck⟩

theorem bareForm_stuck (h : Stumbles tape expression pos) (hkind : tape.kind pos ≠ .word) :
    ∃ stop, Gives tape pos (bareForm expression) (.stuck stop) := by
  cases h with
  | stuck hstuck => exact ⟨_, hstuck.bind_stuck⟩
  | compared hword _ _ _ => exact absurd hword hkind

theorem compareForm_stuck (hkind : (tape.kind pos).isName = false) :
    ∃ stop, Gives tape pos (compareForm expression) (.stuck stop) := by
  have huse : nameUse? (tape.kind pos) = none := by
    simp only [Kind.isName, Bool.or_eq_false_iff, beq_eq_false_iff_ne] at hkind
    simp [nameUse?, hkind]
  have hname : Gives tape pos name (.stuck pos) := by
    refine Gives.peek_bind rfl ?_
    rw [huse]
    exact .miss _
  exact ⟨pos, hname.bind_stuck⟩

theorem spanned_gives {α : Type} {form : Rule (Span → α)} {make : Span → α}
    (h : Gives tape pos form (.done make stop)) :
    Gives tape pos (spanned form) (.done (make (tape.span pos stop)) stop) :=
  Gives.position_bind (h.bind (Gives.spanFrom_bind (.pure _)))

-- The forms before the right one are stuck.
theorem simpleOperation_takes (before : List (Rule (Span → Operation)))
    {rest : List (Rule (Span → Operation))} {form : Rule (Span → Operation)}
    {make : Span → Operation}
    (hforms : forms expression operation = before ++ form :: rest)
    (hbefore : ∀ other ∈ before, ∃ stop, Gives tape pos other (.stuck stop))
    (h : Gives tape pos form (.done make stop)) :
    Gives tape pos (simpleOperation expression operation)
      (.done (make (tape.span pos stop)) stop) := by
  unfold simpleOperation
  rw [hforms, List.map_append, List.map_cons, List.append_assoc, List.cons_append]
  refine Gives.firstOf_pass _ ?_ (spanned_gives h).firstOf_take
  intro other hother
  obtain ⟨form, hform, rfl⟩ := List.mem_map.1 hother
  obtain ⟨stop, hstuck⟩ := hbefore form hform
  exact ⟨stop, Gives.position_bind hstuck.bind_stuck⟩

-- The forms that begin with an expression or a keyword.
def leadingForms (expression : Nat → Rule Expr) (operation : Nat → Rule Operation) :
    List (Rule (Span → Operation)) :=
  [likeForm expression, withinForm expression, notForm operation, outputForm expression 0,
   outputForm expression 1, outputForm expression 2, groupingForm, renameForm expression]

theorem leadingForms_stuck (operation : Nat → Rule Operation) (h : Stumbles tape expression pos)
    (hneg : tape.kind pos ≠ .neg) (hgrouping : tape.kind pos ≠ .grouping) :
    ∀ form ∈ leadingForms expression operation, ∃ stop, Gives tape pos form (.stuck stop) := by
  intro form hform
  simp only [leadingForms, List.mem_cons, List.not_mem_nil, or_false] at hform
  rcases hform with rfl | rfl | rfl | rfl | rfl | rfl | rfl | rfl
  · exact h.bind_expect rfl
  · exact h.bind_expect rfl
  · exact ⟨pos, Gives.expect_stuck hneg⟩
  · exact outputForm_stuck h 0
  · exact outputForm_stuck h 1
  · exact outputForm_stuck h 2
  · exact ⟨pos, Gives.expect_stuck hgrouping⟩
  · exact h.bind_expect rfl

end Forms

section Connectives

variable {tape : Tape} {pos stop least : Nat} {operation : Nat → Rule Operation}

theorem Closed.mono {more : Nat} (h : Closed tape least pos) (hle : least ≤ more) :
    Closed tape more pos :=
  fun connective hconnective => Nat.lt_of_lt_of_le (h connective hconnective) hle

theorem closed_of_kind (hkind : Connective.ofKind? (tape.kind pos) = none) (least : Nat) :
    Closed tape least pos := by
  intro connective hconnective
  rw [hkind] at hconnective
  cases hconnective

theorem connectiveStep_declines (h : Closed tape least pos) (lhs : Operation) :
    Gives tape pos (connectiveStep operation least lhs) (.done none pos) := by
  refine Gives.peek_bind rfl ?_
  cases hconnective : Connective.ofKind? (tape.kind pos) with
  | none => exact .pure none
  | some connective =>
      dsimp only
      rw [if_pos (h connective hconnective)]
      exact .pure none

theorem connectiveStep_takes {connective : Connective} {lhs rhs : Operation} (hot : tape.Orderly)
    (hkind : Connective.ofKind? (tape.kind pos) = some connective)
    (hinside : tape.kind pos ≠ .finish) (hstrong : least ≤ connective.strength)
    (hrhs : Gives tape (pos + 1) (operation (connective.strength + 1)) (.done rhs stop)) :
    Gives tape pos (connectiveStep operation least lhs)
      (.done (some (connective.join lhs rhs)) stop) := by
  refine Gives.peek_bind rfl ?_
  rw [hkind]
  dsimp only
  rw [if_neg (by omega)]
  exact Gives.advance_bind hot hinside (hrhs.bind (.pure _))

end Connectives

section Climbing

variable {tape : Tape} {gap room least : Nat} {o : Operation}

-- What stands behind an operation does not belong to it, nor to its last operand.
structure Bounds (tape : Tape) (least stop : Nat) (o : Operation) : Prop where
  quiet : tape.Quiet 0 stop
  root : ∀ connective, o.connective? = some connective →
    least ≤ connective.strength ∧ Closed tape (connective.strength + 1) stop
  negation : o.endsInNot = true → Closed tape notStrength stop

-- Wherever an operation is printed and nothing follows that belongs to it, a rule reads it.
def ReadsOperation (tape : Tape) (gap least : Nat) (rule : Rule Operation) (o : Operation) : Prop :=
  ∀ blanks pos, tape.Shows (o.signs gap blanks) pos →
    tape.Quiet 0 (pos + (o.signs gap blanks).length) →
    Closed tape least (pos + (o.signs gap blanks).length) →
    (o.endsInNot = true → Closed tape notStrength (pos + (o.signs gap blanks).length)) →
    ∃ read, read.relabel .unplaced = o.relabel .unplaced ∧
      Gives tape pos rule (.done read (pos + (o.signs gap blanks).length))

-- Wherever an operation is printed and nothing follows that belongs to it, connectives lead to it.
def ClimbsOperation (tape : Tape) (gap room : Nat) (o : Operation) : Prop :=
  ∀ least blanks pos, tape.Shows (o.signs gap blanks) pos →
    Bounds tape least (pos + (o.signs gap blanks).length) o →
    ∃ read, read.relabel .unplaced = o.relabel .unplaced ∧
      Climbs tape (simpleOperation (tier false room).expression (tier false room).operation)
        (connectiveStep (tier false room).operation least) pos
        (pos + (o.signs gap blanks).length) read

theorem ClimbsOperation.reads (h : ClimbsOperation tape gap room o) (hot : tape.Orderly)
    (hprintable : o.Printable)
    (hroot : ∀ connective, o.connective? = some connective → least ≤ connective.strength) :
    ReadsOperation tape gap least ((tier false (room + 1)).operation least) o := by
  intro blanks pos hshows hquiet hclosed hnegation
  obtain ⟨read, hread, hclimbs⟩ := h least blanks pos hshows ⟨hquiet, fun connective hconnective =>
    ⟨hroot connective hconnective, hclosed.mono (Nat.le_succ_of_le (hroot connective hconnective))⟩,
    hnegation⟩
  have hsize := hshows.lt_size hot (hprintable.signs_ne_nil gap blanks)
  exact ⟨read, hread,
    (hclimbs.gives (Nat.le_of_lt hsize) (connectiveStep_declines hclosed read)).whileShallow⟩

end Climbing

section Join

variable {tape : Tape} {gap room : Nat} {connective : Connective} {lhs rhs : Operation}

theorem signs_join (connective : Connective) (lhs rhs : Operation) (gap blanks : Nat) :
    ∃ sign : Sign, Connective.ofKind? sign.kind = some connective ∧
      (connective.join lhs rhs).signs gap blanks =
        lhs.signs gap blanks ++ sign :: rhs.signs gap 1 := by
  cases connective with
  | and => exact ⟨_, rfl, rfl⟩
  | or => exact ⟨_, rfl, rfl⟩

theorem Node.Graded.join (h : (Node.operation (connective.join lhs rhs)).Graded) :
    (∀ inner, lhs.connective? = some inner → connective.strength ≤ inner.strength) ∧
      ∀ inner, rhs.connective? = some inner → connective.strength + 1 ≤ inner.strength := by
  cases connective with
  | and =>
      refine ⟨fun inner hinner => ?_, fun inner hinner => ?_⟩
      · cases inner with
        | and => exact Nat.le_refl _
        | or => exact absurd hinner h.1
      · rw [h.2] at hinner
        cases hinner
  | or =>
      refine ⟨fun inner _ => by cases inner <;> decide, fun inner hinner => ?_⟩
      cases inner with
      | and => decide
      | or => exact absurd hinner h

theorem ClimbsOperation.join (hot : tape.Orderly)
    (hgraded : (Node.operation (connective.join lhs rhs)).Graded)
    (hends : lhs.endsInNot = false) (hrhs : rhs.Printable)
    (hl : ClimbsOperation tape gap (room + 1) lhs) (hr : ClimbsOperation tape gap room rhs) :
    ClimbsOperation tape gap (room + 1) (connective.join lhs rhs) := by
  intro least blanks pos hshows hbounds
  obtain ⟨sign, hkind, hsigns⟩ := signs_join connective lhs rhs gap blanks
  obtain ⟨mid, hmid⟩ : ∃ mid, mid = pos + (lhs.signs gap blanks).length := ⟨_, rfl⟩
  have hstop : pos + ((connective.join lhs rhs).signs gap blanks).length =
      mid + 1 + (rhs.signs gap 1).length := by
    rw [hsigns, List.length_append, List.length_cons]
    omega
  rw [hstop] at hbounds ⊢
  rw [hsigns] at hshows
  obtain ⟨hshownl, hsign, hshownr⟩ := Tape.shows_append_iff.1 hshows
  rw [← hmid] at hsign hshownr
  rw [← hsign.kind] at hkind
  obtain ⟨hleft, hright⟩ := hgraded.join
  have hself : (connective.join lhs rhs).connective? = some connective := by
    cases connective <;> rfl
  have hlast : (connective.join lhs rhs).endsInNot = rhs.endsInNot := by
    cases connective <;> simp [Connective.join, Operation.endsInNot]
  obtain ⟨hstrong, hclosed⟩ := hbounds.root connective hself
  have hlbounds : Bounds tape least mid lhs := by
    refine ⟨Tape.quiet_of_kind ?_ 0, fun inner hinner => ?_, fun hnot => ?_⟩
    · rw [Connective.ofKind?_eq_some hkind]
      cases connective <;> rfl
    · have hle := hleft inner hinner
      refine ⟨Nat.le_trans hstrong hle, fun other hother => ?_⟩
      rw [hkind, Option.some.injEq] at hother
      rw [← hother]
      exact Nat.lt_succ_of_le hle
    · rw [hends] at hnot
      cases hnot
  rw [hmid] at hlbounds
  obtain ⟨readl, hsamel, hclimbs⟩ := hl least blanks pos hshownl hlbounds
  rw [← hmid] at hclimbs
  obtain ⟨readr, hsamer, hgives⟩ := (hr.reads hot hrhs hright) 1 (mid + 1) hshownr hbounds.quiet
    hclosed (by rw [← hlast]; exact hbounds.negation)
  have hlt : mid < mid + 1 + (rhs.signs gap 1).length := by omega
  refine ⟨connective.join readl readr, ?_,
    hclimbs.more hlt (connectiveStep_takes hot hkind hsign.inside hstrong hgives)⟩
  cases connective <;> simp only [Connective.join, Operation.relabel, hsamel, hsamer]

-- The operand on the right is read one level further in.
theorem climbs_join (connective : Connective) (hot : tape.Orderly) (hrhs : rhs.Printable)
    (hgraded : (Node.operation (connective.join lhs rhs)).GradedWithin)
    (hcloses : (connective.join lhs rhs).closes = true)
    (hsteps : (connective.join lhs rhs).steps + 1 ≤ room)
    (hl : ∀ {room : Nat}, (Node.operation lhs).GradedWithin → lhs.closes = true →
      lhs.steps + 1 ≤ room → ClimbsOperation tape gap room lhs)
    (hr : ∀ {room : Nat}, (Node.operation rhs).GradedWithin → rhs.closes = true →
      rhs.steps + 1 ≤ room → ClimbsOperation tape gap room rhs) :
    ClimbsOperation tape gap room (connective.join lhs rhs) := by
  have hmeasure : (connective.join lhs rhs).steps = max lhs.steps (rhs.steps + 1) := by
    cases connective <;> rfl
  rw [hmeasure] at hsteps
  obtain ⟨room, rfl⟩ : ∃ less, room = less + 1 := ⟨room - 1, by omega⟩
  have hstepsl : lhs.steps + 1 ≤ room + 1 := by omega
  have hstepsr : rhs.steps + 1 ≤ room := by omega
  have hmem : ∀ inner ∈ [lhs, rhs],
      Node.operation inner ∈ (Node.operation (connective.join lhs rhs)).children := by
    intro inner hinner
    refine operation_mem_children ?_
    cases connective <;> exact hinner
  have hmeml := hmem lhs List.mem_cons_self
  have hmemr := hmem rhs (List.mem_cons_of_mem _ List.mem_cons_self)
  have hparts : (connective.join lhs rhs).closes =
      (!lhs.endsInNot && lhs.closes && rhs.closes) := by
    cases connective <;> rfl
  rw [hparts, Bool.and_eq_true, Bool.and_eq_true, Bool.not_eq_true'] at hcloses
  obtain ⟨⟨hends, hclosesl⟩, hclosesr⟩ := hcloses
  exact .join hot (hgraded _ .self) hends hrhs
    (hl (hgraded.child hmeml) hclosesl hstepsl)
    (hr (hgraded.child hmemr) hclosesr hstepsr)

end Join

section Simple

variable {tape : Tape} {gap room : Nat}

theorem climbs_compare {field : Name} {op : CompareOp} {value : Expr} {span : Span}
    (hot : tape.Orderly) (huse : field.use = .field)
    (hstumbles : ∀ blanks pos, tape.Shows ((Operation.compare field op value span).signs gap blanks)
      pos → Stumbles tape (tier false room).expression pos)
    (hvalue : ReadsExpr tape gap 0 ((tier false room).expression 0) value) :
    ClimbsOperation tape gap room (.compare field op value span) := by
  intro least blanks pos hshows hbounds
  have htrial := hstumbles blanks pos hshows
  have hstop : pos + ((Operation.compare field op value span).signs gap blanks).length =
      pos + 1 + 1 + (value.signs gap 0).length := by
    simp only [Operation.signs, List.length_cons]
    omega
  rw [hstop] at hbounds ⊢
  rw [Operation.signs] at hshows
  obtain ⟨hname, hop, hshown⟩ := hshows
  have hkind : tape.kind pos = .word := hname.kind
  obtain ⟨read, hread, hgives⟩ := hvalue 0 (pos + 1 + 1) hshown hbounds.quiet
  have hform : Gives tape pos (compareForm (tier false room).expression)
      (.done (.compare ⟨.field, field.text, .single (tape.index pos)⟩ op read)
        (pos + 1 + 1 + (value.signs gap 0).length)) := by
    refine (name_word hot hname).bind (Gives.peek_bind hop.kind ?_)
    rw [CompareOp.ofKind?_kind]
    exact Gives.advance_bind hot hop.inside (hgives.bind (.pure _))
  have hbefore := leadingForms_stuck (tier false room).operation htrial
    (by rw [hkind]; decide) (by rw [hkind]; decide)
  refine ⟨_, ?_, (simpleOperation_takes _ rfl hbefore hform).climbs⟩
  simp only [Operation.relabel, Name.relabel_unplaced huse rfl, hread, Relabel.unplaced_place]

theorem climbs_not {inner : Operation} {span : Span} (hot : tape.Orderly)
    (hstumbles : ∀ blanks pos, tape.Shows ((Operation.not inner span).signs gap blanks) pos →
      Stumbles tape (tier false room).expression pos)
    (hinner : ReadsOperation tape gap notStrength ((tier false room).operation notStrength)
      inner) :
    ClimbsOperation tape gap room (.not inner span) := by
  intro least blanks pos hshows hbounds
  have htrial := hstumbles blanks pos hshows
  have hstop : pos + ((Operation.not inner span).signs gap blanks).length =
      pos + 1 + (inner.signs gap 1).length := by
    simp only [Operation.signs, List.length_cons]
    omega
  rw [hstop] at hbounds ⊢
  rw [Operation.signs] at hshows
  obtain ⟨hneg, hshown⟩ := hshows
  have hclosed := hbounds.negation rfl
  obtain ⟨read, hread, hgives⟩ := hinner 1 (pos + 1) hshown hbounds.quiet hclosed fun _ => hclosed
  have hform : Gives tape pos (notForm (tier false room).operation)
      (.done (.not read) (pos + 1 + (inner.signs gap 1).length)) :=
    Gives.expect_bind hot hneg.kind (by decide) (hgives.bind (.pure _))
  have hbefore : ∀ form ∈ [likeForm (tier false room).expression,
      withinForm (tier false room).expression], ∃ stop, Gives tape pos form (.stuck stop) := by
    intro form hform
    simp only [List.mem_cons, List.not_mem_nil, or_false] at hform
    rcases hform with rfl | rfl
    · exact htrial.bind_expect rfl
    · exact htrial.bind_expect rfl
  refine ⟨_, ?_, (simpleOperation_takes _ rfl hbefore hform).climbs⟩
  simp only [Operation.relabel, hread, Relabel.unplaced_place]

theorem climbs_paren {inner : Operation} {span : Span} (hot : tape.Orderly)
    (hstumbles : ∀ blanks pos, tape.Shows ((Operation.paren inner span).signs gap blanks) pos →
      Stumbles tape (tier false room).expression pos)
    (hinner : ReadsOperation tape gap 0 ((tier false room).operation 0) inner) :
    ClimbsOperation tape gap room (.paren inner span) := by
  intro least blanks pos hshows _
  have htrial := hstumbles blanks pos hshows
  have hstop : pos + ((Operation.paren inner span).signs gap blanks).length =
      pos + 1 + (inner.signs gap 0).length + 1 := by
    simp only [Operation.signs, List.length_cons, List.length_append, List.length_nil]
    omega
  rw [hstop]
  rw [Operation.signs] at hshows
  obtain ⟨hopen, hinside⟩ := hshows
  obtain ⟨hshown, hclose, -⟩ := Tape.shows_append_iff.1 hinside
  have hkind : tape.kind pos = .openParen := hopen.kind
  have hclosed : ∀ least, Closed tape least (pos + 1 + (inner.signs gap 0).length) :=
    closed_of_kind (by rw [hclose.kind]; rfl)
  obtain ⟨read, hread, hgives⟩ := hinner 0 (pos + 1) hshown
    (Tape.quiet_of_kind (by rw [hclose.kind]; rfl) 0) (hclosed 0) fun _ => hclosed notStrength
  have hform : Gives tape pos (parenForm (tier false room).operation)
      (.done (.paren read) (pos + 1 + (inner.signs gap 0).length + 1)) :=
    Gives.expect_bind hot hopen.kind (by decide)
      (hgives.bind (Gives.expect_bind hot hclose.kind (by decide) (.pure _)))
  have hleading := leadingForms_stuck (tier false room).operation htrial
    (by rw [hkind]; decide) (by rw [hkind]; decide)
  have hbefore : ∀ form ∈ leadingForms (tier false room).expression (tier false room).operation ++
      [compareForm (tier false room).expression, bareForm (tier false room).expression],
      ∃ stop, Gives tape pos form (.stuck stop) := by
    intro form hform
    rcases List.mem_append.1 hform with hform | hform
    · exact hleading form hform
    · simp only [List.mem_cons, List.not_mem_nil, or_false] at hform
      rcases hform with rfl | rfl
      · exact compareForm_stuck (by rw [hkind]; rfl)
      · exact bareForm_stuck htrial (by rw [hkind]; decide)
  refine ⟨_, ?_, (simpleOperation_takes _ rfl hbefore hform).climbs⟩
  simp only [Operation.relabel, hread, Relabel.unplaced_place]

end Simple

end Grammar

open Grammar Rule

section

variable {tape : Tape} {o : Operation} {gap room : Nat}

-- The induction follows the first part of the operation, where the expression is tried.
theorem Operation.Printable.stumbles (h : o.Printable) (hot : tape.Orderly)
    (hsteps : o.steps + 1 ≤ room) (gap blanks pos : Nat)
    (hshows : tape.Shows (o.signs gap blanks) pos) :
    Stumbles tape (tier false room).expression pos := by
  induction h generalizing room blanks pos with
  | @compare field op value span _ _ _ =>
      obtain ⟨room, rfl⟩ : ∃ less, room = less + 1 := ⟨room - 1, by omega⟩
      rw [signs] at hshows
      refine stumbles_word hot hshows.1 ?_
      rw [hshows.2.1.kind]
      exact op.isComparison_kind
  | not _ _ =>
      obtain ⟨room, rfl⟩ : ∃ less, room = less + 1 := ⟨room - 1, by omega⟩
      exact stumbles_neg hshows.1.kind
  | paren _ ih =>
      rw [Operation.steps] at hsteps
      obtain ⟨room, rfl⟩ : ∃ less, room = less + 1 := ⟨room - 1, by omega⟩
      obtain ⟨hopen, hinside⟩ := hshows
      exact stumbles_paren hot hopen.kind
        (ih (Nat.le_of_succ_le_succ hsteps) 0 (pos + 1) (Tape.shows_append_iff.1 hinside).1)
  | and _ _ ihl _ | or _ _ ihl _ =>
      rw [Operation.steps] at hsteps
      exact ihl (by omega) blanks pos (Tape.shows_append_iff.1 hshows).1

theorem Operation.Printable.climbs (h : o.Printable) (hot : tape.Orderly)
    (hgraded : (Node.operation o).GradedWithin)
    (hcloses : o.closes = true)
    (hsteps : o.steps + 1 ≤ room) : ClimbsOperation tape gap room o := by
  induction h generalizing room with
  | @compare field op value span huse htext hvalue =>
      have htrials := (Printable.compare huse htext hvalue).stumbles hot hsteps gap
      have hinner : (Node.expr value).GradedWithin := hgraded.child
        (by simp [Node.children, Node.parts, Node.operationParts, Part.node?])
      exact climbs_compare hot huse htrials (hvalue.reads hot hinner hsteps)
  | @not inner span hprintable ih =>
      have htrials := (Printable.not hprintable).stumbles hot hsteps gap
      rw [Operation.steps] at hsteps
      obtain ⟨room, rfl⟩ : ∃ less, room = less + 1 := ⟨room - 1, by omega⟩
      have hmem := operation_mem_children (show inner ∈ (Operation.not inner span).children from
        List.mem_singleton_self inner)
      have hclimbs := ih (hgraded.child hmem) hcloses
        (Nat.le_of_succ_le_succ hsteps)
      refine climbs_not hot htrials (hclimbs.reads hot hprintable fun connective _ => ?_)
      cases connective <;> decide
  | @paren inner span hprintable ih =>
      have htrials := (Printable.paren hprintable).stumbles hot hsteps gap
      rw [Operation.steps] at hsteps
      obtain ⟨room, rfl⟩ : ∃ less, room = less + 1 := ⟨room - 1, by omega⟩
      have hmem := operation_mem_children (show inner ∈ (Operation.paren inner span).children from
        List.mem_singleton_self inner)
      have hclimbs := ih (hgraded.child hmem) hcloses
        (Nat.le_of_succ_le_succ hsteps)
      exact climbs_paren hot htrials (hclimbs.reads hot hprintable fun _ _ => Nat.zero_le _)
  | and _ hrhs ihl ihr => exact climbs_join .and hot hrhs hgraded hcloses hsteps ihl ihr
  | or _ hrhs ihl ihr => exact climbs_join .or hot hrhs hgraded hcloses hsteps ihl ihr

-- An operation is read wherever it is printed, if the levels of rules are enough for its nesting.
theorem Operation.Printable.reads (h : o.Printable) (hot : tape.Orderly)
    (hgraded : (Node.operation o).GradedWithin) (hcloses : o.closes = true)
    (hsteps : o.steps + 2 ≤ room) :
    ReadsOperation tape gap 0 ((tier false room).operation 0) o := by
  obtain ⟨room, rfl⟩ : ∃ less, room = less + 1 := ⟨room - 1, by omega⟩
  exact (h.climbs hot hgraded hcloses (Nat.le_of_succ_le_succ hsteps)).reads hot h
    fun _ _ => Nat.zero_le _

end

end SearchPipeline
