import SearchPipeline.Proofs.Grammar.Expression

namespace SearchPipeline.Grammar

open Rule

-- A form gives its operation once it knows the span. With the span of the tokens that the form has
-- taken, the operation is derived from them.
def FormEnsures (tape : Tape) (pos : Nat) (form : Rule (Span → Operation)) : Prop :=
  Ensures (derived tape) tape pos form fun make stop =>
    Derives tape (.operation (make (tape.span pos stop))) pos stop

theorem spanned_ensures {tape : Tape} {pos : Nat} {form : Rule (Span → Operation)}
    (h : FormEnsures tape pos form) :
    Ensures (derived tape) tape pos (spanned form)
      fun o stop => Derives tape (.operation o) pos stop := by
  rw [spanned, Ensures.position_bind]
  refine .bind h ?_
  intro make stop hmake
  rw [Ensures.spanFrom_bind, Ensures.pure_iff]
  exact hmake

section

variable {tape : Tape} (hot : tape.Orderly)

include hot

theorem outputMode_ensures (pos : Nat) :
    Ensures (derived tape) tape pos outputMode fun mode stop =>
      tape.kind pos = mode.kind ∧ stop = pos + 1 := by
  rw [outputMode]
  refine .eat_bind ?_ ?_
  · intro hkind
    rw [hot.next_eq (by simp [hkind])]
    exact Ensures.pure_iff.2 ⟨hkind, rfl⟩
  intro _
  refine .eat_bind ?_ ?_
  · intro hkind
    rw [hot.next_eq (by simp [hkind])]
    exact Ensures.pure_iff.2 ⟨hkind, rfl⟩
  intro _
  refine .bind (.attempt (Q := fun _ mid => mid = pos) (.miss _) rfl) ?_
  rintro _ _ rfl
  exact .miss _

theorem moreOutputs_ensures (count pos : Nat) :
    Ensures (derived tape) tape pos (moreOutputs count) fun names stop =>
      names.length = count ∧
        Spells tape (names.flatMap fun n => [.token [.comma], .node (.name n)]) pos stop := by
  induction count generalizing pos with
  | zero => exact Ensures.pure_iff.2 ⟨rfl, .nil⟩
  | succ count ih =>
      rw [moreOutputs]
      refine .expect_bind fun hcomma => ?_
      rw [hot.next_eq (by simp [hcomma])]
      refine .bind (name_ensures hot (pos + 1)) ?_
      intro first mid hfirst
      refine .bind (ih mid) ?_
      rintro rest stop ⟨hlength, hrest⟩
      rw [Ensures.pure_iff]
      refine ⟨by simp [hlength], ?_⟩
      simp only [List.flatMap_cons, List.cons_append, List.nil_append, Spells.token_iff,
        Spells.node_iff, List.mem_singleton]
      exact ⟨hcomma, mid, hfirst, hrest⟩

theorem groupingStep_ensures {found : List Name} {first : Name} {start pos : Nat}
    (hfound : Spells tape
      (separated (.optional [.comma]) (.name first :: found.reverse.map .name)) start pos) :
    Ensures (derived tape) tape pos (groupingStep (found ++ [first])) fun next stop =>
      ∃ more, next.getD (found ++ [first]) = more ++ [first] ∧ Spells tape
        (separated (.optional [.comma]) (.name first :: more.reverse.map .name)) start stop := by
  rw [groupingStep, Ensures.peek_bind, Ensures.peekAt_bind]
  split
  · next h =>
    rw [Ensures.advance_bind, hot.next_eq (by simp [h.1])]
    refine .bind (name_ensures hot (pos + 1)) ?_
    intro n stop hname
    rw [Ensures.pure_iff]
    refine ⟨n :: found, rfl, ?_⟩
    simp only [List.reverse_cons, List.map_append, List.map_cons, List.map_nil, separated_concat,
      Spells.append_iff]
    exact ⟨pos, hfound, .take (List.mem_singleton.2 h.1) (Spells.node_iff.2 ⟨stop, hname, .nil⟩)⟩
  rw [Ensures.peek_bind]
  split
  · refine .bind (name_ensures hot pos) ?_
    intro n stop hname
    rw [Ensures.pure_iff]
    refine ⟨n :: found, rfl, ?_⟩
    simp only [List.reverse_cons, List.map_append, List.map_cons, List.map_nil, separated_concat,
      Spells.append_iff]
    exact ⟨pos, hfound, .skip (Spells.node_iff.2 ⟨stop, hname, .nil⟩)⟩
  · exact Ensures.pure_iff.2 ⟨found, rfl, hfound⟩

theorem groupingForm_ensures (pos : Nat) : FormEnsures tape pos groupingForm := by
  unfold FormEnsures
  rw [groupingForm]
  refine .expect_bind fun hby => ?_
  rw [hot.next_eq (by simp [hby])]
  refine .bind (name_ensures hot (pos + 1)) ?_
  intro first mid hfirst
  refine .bind (.repeatStep (I := fun found stop => ∃ more, found = more ++ [first] ∧ Spells tape
    (separated (.optional [.comma]) (.name first :: more.reverse.map .name)) (pos + 1) stop)
    ?_ ⟨[], rfl, Spells.node_iff.2 ⟨mid, hfirst, .nil⟩⟩) ?_
  · rintro _ at' ⟨found, rfl, hfound⟩
    exact groupingStep_ensures hot hfound
  · rintro _ stop ⟨more, rfl, hnames⟩
    rw [Ensures.pure_iff]
    refine .inner ?_ rfl rfl (by simp [Node.Legal])
    simp only [Node.parts, Node.operationParts, List.reverse_append, List.reverse_singleton,
      List.singleton_append, List.map_cons, Spells.token_iff, List.mem_singleton]
    exact ⟨hby, hnames⟩

end

section

variable {tape : Tape} (hot : tape.Orderly) {expression : Nat → Rule Expr}
  {operation : Nat → Rule Operation}
  (hexpr : ∀ least pos, Ensures (derived tape) tape pos (expression least)
    fun e stop => Derives tape (.expr e) pos stop)
  (hop : ∀ least pos, Ensures (derived tape) tape pos (operation least)
    fun o stop => Derives tape (.operation o) pos stop)

include hot hexpr

theorem likeForm_ensures (pos : Nat) : FormEnsures tape pos (likeForm expression) := by
  unfold FormEnsures
  rw [likeForm]
  refine .bind (hexpr 0 pos) ?_
  intro e mid he
  refine .expect_bind fun hlike => ?_
  rw [hot.next_eq (by simp [hlike])]
  refine .bind (value_ensures hot (mid + 1)) ?_
  intro v stop hv
  rw [Ensures.pure_iff]
  refine .inner ?_ rfl rfl trivial
  simp only [Node.parts, Node.operationParts, Spells.node_iff, Spells.token_iff, Spells.nil_iff,
    List.mem_singleton]
  exact ⟨mid, he, hlike, stop, hv, rfl⟩

theorem withinForm_ensures (pos : Nat) : FormEnsures tape pos (withinForm expression) := by
  unfold FormEnsures
  rw [withinForm]
  refine .bind (hexpr 0 pos) ?_
  intro e mid he
  refine .expect_bind fun hwithin => ?_
  rw [hot.next_eq (by simp [hwithin])]
  refine .expect_bind fun hopen => ?_
  rw [hot.next_eq (by simp [hopen])]
  refine .bind (expressionList_ensures hot hexpr _) ?_
  intro items last hitems
  refine .expect_bind fun hclose => ?_
  rw [hot.next_eq (by simp [hclose]), Ensures.pure_iff]
  refine .inner ?_ rfl rfl trivial
  simp only [Node.parts, Node.operationParts, Spells.append_iff, Spells.node_iff, Spells.token_iff,
    Spells.nil_iff, List.mem_singleton]
  exact ⟨last, ⟨mid + 1 + 1, ⟨mid, he, hwithin, hopen, rfl⟩, hitems⟩, hclose, rfl⟩

omit hot in
theorem inputs_ensures (count pos : Nat) :
    Ensures (derived tape) tape pos (inputs expression count) fun es stop =>
      es.length = count ∧ Spells tape (es.map (.node ∘ .expr)) pos stop := by
  induction count generalizing pos with
  | zero => exact Ensures.pure_iff.2 ⟨rfl, .nil⟩
  | succ count ih =>
      rw [inputs]
      refine .bind (hexpr 0 pos) ?_
      intro first mid hfirst
      refine .bind (ih mid) ?_
      rintro rest stop ⟨hlength, hrest⟩
      rw [Ensures.pure_iff]
      exact ⟨by simp [hlength], Spells.node_iff.2 ⟨mid, hfirst, hrest⟩⟩

theorem outputForm_ensures {more : Nat} (hmore : more ≤ 2) (pos : Nat) :
    FormEnsures tape pos (outputForm expression more) := by
  unfold FormEnsures
  rw [outputForm]
  refine .bind (inputs_ensures hexpr (more + 1) pos) ?_
  rintro before mid ⟨hbefore, hinputs⟩
  refine .bind (outputMode_ensures hot mid) ?_
  rintro mode _ ⟨hmode, rfl⟩
  refine .bind (name_ensures hot (mid + 1)) ?_
  intro first last hfirst
  refine .bind (moreOutputs_ensures hot more last) ?_
  rintro others stop ⟨hothers, houtputs⟩
  rw [Ensures.pure_iff]
  refine .inner ?_ rfl rfl ?_
  · simp only [Node.parts, Node.operationParts, separated, List.map_cons, List.flatMap_map,
      Spells.append_iff, Spells.node_iff, Spells.token_iff, Spells.nil_iff, List.mem_singleton]
    exact ⟨mid + 1, ⟨mid, hinputs, hmode, rfl⟩, last, hfirst, houtputs⟩
  · simp only [Node.Legal, List.length_cons]
    omega

theorem renameForm_ensures (pos : Nat) : FormEnsures tape pos (renameForm expression) := by
  unfold FormEnsures
  rw [renameForm]
  refine .bind (hexpr 0 pos) ?_
  intro e mid he
  refine .expect_bind fun has => ?_
  rw [hot.next_eq (by simp [has])]
  refine .bind (name_ensures hot (mid + 1)) ?_
  intro target stop htarget
  rw [Ensures.pure_iff]
  refine .inner ?_ rfl rfl trivial
  simp only [Node.parts, Node.operationParts, Spells.node_iff, Spells.token_iff, Spells.nil_iff,
    List.mem_singleton]
  exact ⟨mid, he, has, stop, htarget, rfl⟩

theorem compareForm_ensures (pos : Nat) : FormEnsures tape pos (compareForm expression) := by
  unfold FormEnsures
  rw [compareForm]
  refine .bind (name_ensures hot pos) ?_
  intro field mid hfield
  rw [Ensures.peek_bind]
  split
  · exact .miss _
  · next op hop =>
    have hkind := CompareOp.ofKind?_eq_some hop
    have hfinish : tape.kind mid ≠ .finish := by
      rw [hkind]
      cases op <;> simp [CompareOp.kind]
    rw [Ensures.advance_bind, hot.next_eq hfinish]
    refine .bind (hexpr 0 (mid + 1)) ?_
    intro e stop he
    rw [Ensures.pure_iff]
    refine .inner ?_ rfl rfl trivial
    simp only [Node.parts, Node.operationParts, Spells.node_iff, Spells.token_iff, Spells.nil_iff,
      List.mem_singleton]
    exact ⟨mid, hfield, hkind, stop, he, rfl⟩

omit hot in
theorem bareForm_ensures (pos : Nat) : FormEnsures tape pos (bareForm expression) := by
  unfold FormEnsures
  rw [bareForm]
  refine .bind (hexpr 0 pos) ?_
  intro e stop he
  rw [Ensures.pure_iff]
  exact .inner (Spells.node_iff.2 ⟨stop, he, .nil⟩) rfl rfl trivial

include hop

omit hexpr in
theorem notForm_ensures (pos : Nat) : FormEnsures tape pos (notForm operation) := by
  unfold FormEnsures
  rw [notForm]
  refine .expect_bind fun hnot => ?_
  rw [hot.next_eq (by simp [hnot])]
  refine .bind (hop notStrength (pos + 1)) ?_
  intro inner stop hinner
  rw [Ensures.pure_iff]
  refine .inner ?_ rfl rfl trivial
  exact .token (List.mem_singleton.2 hnot) (Spells.node_iff.2 ⟨stop, hinner, .nil⟩)

omit hexpr in
theorem parenForm_ensures (pos : Nat) : FormEnsures tape pos (parenForm operation) := by
  unfold FormEnsures
  rw [parenForm]
  refine .expect_bind fun hopen => ?_
  rw [hot.next_eq (by simp [hopen])]
  refine .bind (hop 0 (pos + 1)) ?_
  intro inner mid hinner
  refine .expect_bind fun hclose => ?_
  rw [hot.next_eq (by simp [hclose]), Ensures.pure_iff]
  refine .inner ?_ rfl rfl trivial
  simp only [Node.parts, Node.operationParts, Spells.node_iff, Spells.token_iff, Spells.nil_iff,
    List.mem_singleton]
  exact ⟨hopen, mid, hinner, hclose, rfl⟩

theorem simpleOperation_ensures (pos : Nat) :
    Ensures (derived tape) tape pos (simpleOperation expression operation)
      fun o stop => Derives tape (.operation o) pos stop := by
  refine .firstOf ?_
  simp only [List.mem_append, List.mem_map, forms, List.mem_cons, List.not_mem_nil, or_false]
  rintro rule (⟨form, hform, rfl⟩ | rfl)
  · apply spanned_ensures
    rcases hform with rfl | rfl | rfl | rfl | rfl | rfl | rfl | rfl | rfl | rfl | rfl
    · exact likeForm_ensures hot hexpr pos
    · exact withinForm_ensures hot hexpr pos
    · exact notForm_ensures hot hop pos
    · exact outputForm_ensures hot hexpr (by omega) pos
    · exact outputForm_ensures hot hexpr (by omega) pos
    · exact outputForm_ensures hot hexpr (by omega) pos
    · exact groupingForm_ensures hot pos
    · exact renameForm_ensures hot hexpr pos
    · exact compareForm_ensures hot hexpr pos
    · exact bareForm_ensures hexpr pos
    · exact parenForm_ensures hot hop pos
  · exact .miss _

omit hot hexpr hop in
theorem Connective.ofKind?_eq_some {kind : Kind} {connective : Connective}
    (h : Connective.ofKind? kind = some connective) :
    kind = match connective with | .and => .conj | .or => .disj := by
  cases kind <;> cases h <;> rfl

omit hexpr in
theorem connectiveStep_ensures {least : Nat} {lhs : Operation} {first : Nat} (pos : Nat)
    (hlhs : Derives tape (.operation lhs) first pos) :
    Ensures (derived tape) tape pos (connectiveStep operation least lhs)
      fun next stop => Derives tape (.operation (next.getD lhs)) first stop := by
  rw [connectiveStep, Ensures.peek_bind]
  split
  · exact Ensures.pure_iff.2 hlhs
  next connective hconnective =>
  split
  · exact Ensures.pure_iff.2 hlhs
  have hkind := Connective.ofKind?_eq_some hconnective
  have hfinish : tape.kind pos ≠ .finish := by
    rw [hkind]
    cases connective <;> simp
  rw [Ensures.advance_bind, hot.next_eq hfinish]
  refine .bind (hop _ (pos + 1)) ?_
  intro rhs stop hrhs
  rw [Ensures.pure_iff]
  have hsize := hrhs.lt_size hot
  have hleft : lhs.span = tape.span first pos := hlhs.fits.span
  have hright : rhs.span = tape.span (pos + 1) stop := hrhs.fits.span
  have hjoin : lhs.span.join rhs.span = tape.span first stop := by
    rw [hleft, hright]
    exact Tape.span_join hot hlhs.lt (by omega) hrhs.lt (by omega)
  cases connective with
  | and =>
      refine .inner ?_ hjoin rfl trivial
      exact Spells.node_iff.2 ⟨pos, hlhs, .token (List.mem_singleton.2 hkind)
        (Spells.node_iff.2 ⟨stop, hrhs, .nil⟩)⟩
  | or =>
      refine .inner ?_ hjoin rfl trivial
      exact Spells.node_iff.2 ⟨pos, hlhs, .token (List.mem_singleton.2 hkind)
        (Spells.node_iff.2 ⟨stop, hrhs, .nil⟩)⟩

theorem connectives_ensures (least pos : Nat) :
    Ensures (derived tape) tape pos (connectives expression operation least)
      fun o stop => Derives tape (.operation o) pos stop := by
  refine .bind (simpleOperation_ensures hot hexpr hop pos) ?_
  intro first mid hfirst
  exact .repeatStep (I := fun o stop => Derives tape (.operation o) pos stop)
    (fun lhs at' hlhs => connectiveStep_ensures hot hop at' hlhs) hfirst

end

end SearchPipeline.Grammar
