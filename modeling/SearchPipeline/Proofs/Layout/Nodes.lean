import SearchPipeline.Proofs.Layout.Outline

namespace SearchPipeline

open Grammar

-- The kinds of token that an outline shows as nodes of their own.
def Kind.isShown : Kind → Bool
  | openingCommand | command | commandOrFunction | modifierOrFunction | timeOrFunction | function
  | word | time | number | string => true
  | _ => false

namespace Grammar

-- The significant tokens between two positions.
def Tape.between (tape : Tape) (first stop : Nat) : List Mark :=
  (List.range' first (stop - first)).map tape.mark

theorem Tape.textBetween_eq (tape : Tape) (first stop : Nat) :
    tape.textBetween first stop = String.join ((tape.between first stop).map (·.text)) := by
  rw [textBetween, between, List.map_map]
  rfl

theorem Tape.between_append (tape : Tape) {first mid stop : Nat} (hmid : first ≤ mid)
    (hstop : mid ≤ stop) :
    tape.between first mid ++ tape.between mid stop = tape.between first stop := by
  obtain ⟨left, rfl⟩ : ∃ left, mid = first + left := ⟨mid - first, by omega⟩
  obtain ⟨right, rfl⟩ : ∃ right, stop = first + left + right := ⟨stop - (first + left), by omega⟩
  have htotal : first + left + right - first = left + right := by omega
  rw [between, between, between, ← List.map_append, Nat.add_sub_cancel_left,
    Nat.add_sub_cancel_left, htotal, List.range'_append_1]

theorem Tape.between_single (tape : Tape) (pos : Nat) :
    tape.between pos (pos + 1) = [tape.mark pos] := by
  rw [between, Nat.add_sub_cancel_left]
  rfl

-- The tokens of a node that has a label and no nodes inside: one that is shown, a number with a sign
-- before it, an operator word that is used as a name, or a star on its own.
inductive Single (label : String) : List Mark → Prop where
  | shown {mark : Mark} : mark.kind.isShown = true → Single label [mark]
  | signed {sign number : Mark} : sign.kind = .plus ∨ sign.kind = .minus →
      number.kind = .number → Single label [sign, number]
  | like {mark : Mark} : label = "function" ∨ label = "function_use" → mark.kind = .like →
      Single label [mark]
  | star {mark : Mark} : label = "wildcard" → mark.kind = .star → Single label [mark]

-- The part takes no token that is shown.
def Part.Unshown : Part → Prop
  | token kinds | optional kinds => ∀ kind ∈ kinds, kind.isShown = false
  | node _ => True

section Singles

variable {tape : Tape} {kinds : List Kind} {label : String} {first stop : Nat}

def Kind.isSingle (label : String) (kind : Kind) : Bool :=
  kind.isShown || kind == .like && (label == "function" || label == "function_use") ||
    kind == .star && label == "wildcard"

theorem Single.of_token (hkinds : kinds.all (Kind.isSingle label) = true)
    (h : Spells tape [.token kinds] first stop) : Single label (tape.between first stop) := by
  rw [Spells.token_iff, Spells.nil_iff] at h
  obtain ⟨hmem, rfl⟩ := h
  have hkind := List.all_eq_true.1 hkinds _ hmem
  simp only [Kind.isSingle, Bool.or_eq_true, Bool.and_eq_true, beq_iff_eq] at hkind
  rw [Tape.between_single]
  rcases hkind with (hshown | ⟨hlike, hlabel⟩) | ⟨hstar, hlabel⟩
  · exact .shown hshown
  · exact .like hlabel hlike
  · exact .star hlabel hstar

theorem Single.of_number (h : Spells tape [.optional [.plus, .minus], .token [.number]] first stop) :
    Single label (tape.between first stop) := by
  rw [Spells.optional_iff] at h
  rcases h with h | ⟨hsign, h⟩
  · refine Single.of_token ?_ h
    rfl
  · rw [Spells.token_iff, Spells.nil_iff] at h
    obtain ⟨hnumber, rfl⟩ := h
    rw [← tape.between_append (Nat.le_add_right first 1) (Nat.le_add_right _ 1),
      Tape.between_single, Tape.between_single]
    have hmark : tape.kind first = .plus ∨ tape.kind first = .minus := by simpa using hsign
    exact .signed hmark (List.mem_singleton.1 hnumber)

-- A node that is nothing but another one spells what that one spells.
theorem Single.of_node {node : Node} (h : Spells tape [.node node] first stop)
    (hnode : ∀ first stop, Spells tape node.parts first stop →
      Single label (tape.between first stop)) : Single label (tape.between first stop) := by
  simp only [Spells.node_iff, Spells.nil_iff, exists_eq_right] at h
  exact hnode first stop h.spells

theorem Single.of_name (query : Query) {name : Name}
    (h : Spells tape (Node.name name).parts first stop) :
    Single (query.outlineName name).label (tape.between first stop) := by
  obtain ⟨use, text, span⟩ := name
  have hkinds : use.kinds.all (Kind.isSingle (query.outlineName ⟨use, text, span⟩).label) = true := by
    cases use <;> rfl
  exact Single.of_token hkinds h

theorem Single.of_value (query : Query) {value : Value}
    (h : Spells tape (Node.value value).parts first stop) :
    Single (query.outlineValue value).label (tape.between first stop) := by
  cases value with
  | name n => exact Single.of_node h fun _ _ => Single.of_name query
  | number text span => exact Single.of_number h
  | time text span => exact Single.of_token rfl h
  | string text span => exact Single.of_token rfl h

end Singles

section Unshown

attribute [local simp] Part.Unshown Kind.isShown

theorem unshown_separated {between : Part} (h : between.Unshown) (nodes : List Node) :
    ∀ part ∈ separated between nodes, part.Unshown :=
  forall_mem_separated (fun _ => trivial) h nodes

theorem unshown_body (operations : List Operation) (subquery : Option Subquery) :
    ∀ part ∈ bodyParts operations subquery, part.Unshown :=
  forall_mem_body (fun _ => trivial) (by simp) operations subquery

theorem unshown_later (later : List Stage) : ∀ part ∈ laterParts later, part.Unshown :=
  forall_mem_later (fun _ => trivial) (by simp) later

theorem Part.unshown_comma : (Part.token [.comma]).Unshown := by simp

end Unshown

end Grammar

namespace Query

def outlineNode (query : Query) : Node → Outline
  | .name n => query.outlineName n
  | .function f => query.outlineLeaf "function" f.span
  | .command c => query.outlineCommand c
  | .value v => query.outlineValue v
  | .expr e => query.outlineExpr e
  | .operation o => query.outlineOperation o
  | .opening s => query.outlineStage "init_command" s
  | .stage s => query.outlineStage "next_command" s
  | .subquery q => query.outlineSubquery q

-- The children that an outline gives to a node.
inductive Shows (query : Query) (node : Node) : Prop where
  | leaf : (query.outlineNode node).children = [] →
      (∀ tape first stop, Spells tape node.parts first stop →
        Single (query.outlineNode node).label (tape.between first stop)) → Shows query node
  | inner : (query.outlineNode node).children = node.children.map query.outlineNode →
      node.children ≠ [] → (∀ part ∈ node.parts, part.Unshown) → Shows query node

variable (query : Query)

attribute [local simp] Part.Unshown Kind.isShown

theorem outlineValue_eq (value : Value) :
    (query.outlineValue value).text = query.compactText value.span ∧
      (query.outlineValue value).children = [] := by
  cases value <;> exact ⟨rfl, rfl⟩

-- A stage is shown with its command, its operations and its subquery.
theorem outlineStage_eq (label : String) (stage : Stage) : query.outlineStage label stage =
    .node label (query.compactText stage.span) (stage.nodes.map query.outlineNode) := by
  obtain ⟨piped, command, operations, subquery, span⟩ := stage
  rw [outlineStage_mk, Stage.nodes]
  simp only [List.map_append, List.map_map]
  rfl

-- A node is shown with the text of its own span.
theorem outlineNode_text (node : Node) :
    (query.outlineNode node).text = query.compactText node.span := by
  cases node with
  | name n => rfl
  | function f => rfl
  | command c => rfl
  | value v => exact (query.outlineValue_eq v).1
  | expr e =>
      cases e with
      | value v =>
          simp only [outlineNode, outlineExpr]
          exact (query.outlineValue_eq v).1
      | _ =>
          simp only [outlineNode, outlineExpr, outlineLeaf, Outline.text]
          rfl
  | operation o =>
      cases o <;>
        · simp only [outlineNode, outlineOperation, Outline.text]
          rfl
  | opening s | stage s =>
      simp only [outlineNode, outlineStage_eq, Outline.text]
      rfl
  | subquery q =>
      cases q
      simp only [outlineNode, outlineSubquery, Outline.text]
      rfl

theorem shows_value (value : Value) : query.Shows (.value value) :=
  .leaf (query.outlineValue_eq value).2 fun _ _ _ => Single.of_value query

theorem shows_expr (expr : Expr) (h : (Node.expr expr).Legal) : query.Shows (.expr expr) := by
  cases expr with
  | value v =>
      apply Shows.leaf
      · simp only [outlineNode, outlineExpr]
        exact (query.outlineValue_eq v).2
      · intro tape first stop hspells
        simp only [outlineNode, outlineExpr]
        exact Single.of_node hspells fun _ _ => Single.of_value query
  | wildcard span =>
      apply Shows.leaf
      · simp only [outlineNode, outlineExpr, outlineLeaf, Outline.children]
      · intro tape first stop hspells
        simp only [outlineNode, outlineExpr, outlineLeaf, Outline.label]
        exact Single.of_token (by decide) hspells
  | call function args span =>
      apply Shows.inner
      · simp only [outlineNode, outlineExpr, outlineExprs_eq, Node.children_expr, List.map_cons,
          List.map_map, Function.comp_def, Outline.children]
      · simp [Node.children_expr]
      · have hargs := unshown_separated Part.unshown_comma (args.map .expr)
        simp only [Node.parts, Node.exprParts, List.mem_append, List.mem_cons, List.not_mem_nil,
          or_false]
        rintro part (((rfl | rfl) | hmem) | rfl)
        · trivial
        · simp
        · exact hargs part hmem
        · simp
  | path names span =>
      have hnames : names ≠ [] := h
      apply Shows.inner
      · simp only [outlineNode, outlineExpr, Node.children_expr, List.map_map, Function.comp_def,
          Outline.children]
      · simpa [Node.children_expr] using hnames
      · simp only [Node.parts, Node.exprParts, List.mem_flatMap, List.mem_cons, List.not_mem_nil,
          or_false]
        rintro part ⟨name, -, rfl | rfl⟩
        · simp
        · trivial
  | binary op lhs rhs =>
      apply Shows.inner
      · simp only [outlineNode, outlineExpr, Node.children_expr, List.map_cons, List.map_nil,
          Outline.children]
      · simp [Node.children_expr]
      · cases op <;> simp [Node.parts, Node.exprParts, ArithOp.kind]
  | paren inner span | contains inner span | endsWith inner span | startsWith inner span =>
      apply Shows.inner
      · simp only [outlineNode, outlineExpr, Node.children_expr, List.map_cons, List.map_nil,
          Outline.children]
      · simp [Node.children_expr]
      · simp [Node.parts, Node.exprParts]

theorem shows_operation (operation : Operation) (h : (Node.operation operation).Legal) :
    query.Shows (.operation operation) := by
  cases operation with
  | within expr items span =>
      apply Shows.inner
      · simp only [outlineNode, outlineOperation, outlineExprs_eq, Node.children_operation,
          List.map_cons, List.map_map, Function.comp_def, Outline.children]
      · simp [Node.children_operation]
      · have hitems := unshown_separated Part.unshown_comma (items.map .expr)
        simp only [Node.parts, Node.operationParts, List.mem_append, List.mem_cons,
          List.not_mem_nil, or_false]
        rintro part (((rfl | rfl | rfl) | hmem) | rfl)
        · trivial
        · simp
        · simp
        · exact hitems part hmem
        · simp
  | output inputs mode outputs span =>
      have hinputs : inputs ≠ [] := List.ne_nil_of_length_pos h.2.1
      apply Shows.inner
      · simp only [outlineNode, outlineOperation, outlineExprs_eq, Node.children_operation,
          List.map_append, List.map_map, Function.comp_def, Outline.children]
      · simp [Node.children_operation, hinputs]
      · have houtputs := unshown_separated Part.unshown_comma (outputs.map .name)
        simp only [Node.parts, Node.operationParts, List.mem_append, List.mem_map, List.mem_cons,
          List.not_mem_nil, or_false]
        rintro part ((⟨input, -, rfl⟩ | rfl) | hmem)
        · trivial
        · cases mode <;> simp [OutputMode.kind]
        · exact houtputs part hmem
  | grouping names span =>
      have hnames : names ≠ [] := h
      apply Shows.inner
      · simp only [outlineNode, outlineOperation, Node.children_operation, List.map_map,
          Function.comp_def, Outline.children]
      · simpa [Node.children_operation] using hnames
      · have hcomma : (Part.optional [.comma]).Unshown := Part.unshown_comma
        have hparts := unshown_separated hcomma (names.map .name)
        simp only [Node.parts, Node.operationParts, List.mem_cons]
        rintro part (rfl | hmem)
        · simp
        · exact hparts part hmem
  | compare field op value span =>
      apply Shows.inner
      · simp only [outlineNode, outlineOperation, Node.children_operation, List.map_cons,
          List.map_nil, Outline.children]
      · simp [Node.children_operation]
      · cases op <;>
          simp [Node.parts, Node.operationParts, CompareOp.kind]
  | like expr pattern span | rename expr target span | bare expr span | not inner span
  | paren inner span | and lhs rhs | or lhs rhs =>
      apply Shows.inner
      · simp only [outlineNode, outlineOperation, Node.children_operation, List.map_cons,
          List.map_nil, Outline.children]
      · simp [Node.children_operation]
      · simp [Node.parts, Node.operationParts]

theorem nodes_ne_nil {stage : Stage} (h : Node.HasBody stage) : stage.nodes ≠ [] := by
  rcases h with hoperations | hsubquery
  · simp [Stage.nodes, hoperations]
  · obtain ⟨inner, hinner⟩ := Option.ne_none_iff_exists'.1 hsubquery
    simp [Stage.nodes, hinner]

-- Whatever the grammar allows is shown.
theorem shows_of_legal (node : Node) (h : node.Legal) : query.Shows node := by
  cases node with
  | name n => exact .leaf rfl fun _ _ _ => Single.of_name query
  | function f =>
      apply Shows.leaf rfl
      intro tape first stop hspells
      have hsingle : Single "function" (tape.between first stop) :=
        Single.of_token (by decide) hspells
      exact hsingle
  | command c =>
      apply Shows.leaf rfl
      intro tape first stop hspells
      have hkind : c.kind.isCommand = true := h
      refine Single.of_token ?_ hspells
      cases hc : c.kind <;> simp [hc, Kind.isCommand] at hkind <;> rfl
  | value v => exact query.shows_value v
  | expr e => exact query.shows_expr e h
  | operation o => exact query.shows_operation o h
  | opening s =>
      have hbody := unshown_body s.operations s.subquery
      apply Shows.inner
      · rw [outlineNode, outlineStage_eq, Node.children_opening, Outline.children]
      · rw [Node.children_opening]
        exact nodes_ne_nil h.1
      · simp only [Node.parts, List.mem_append, List.mem_map]
        rintro part ((hmem | ⟨c, -, rfl⟩) | hmem)
        · split at hmem
          · cases List.mem_singleton.1 hmem
            simp
          · cases hmem
        · trivial
        · exact hbody part hmem
  | stage s =>
      have hbody := unshown_body s.operations s.subquery
      apply Shows.inner
      · rw [outlineNode, outlineStage_eq, Node.children_stage, Outline.children]
      · rw [Node.children_stage]
        exact nodes_ne_nil h.1
      · simp only [Node.parts, List.mem_append, List.mem_map]
        rintro part (⟨c, -, rfl⟩ | hmem)
        · trivial
        · exact hbody part hmem
  | subquery q =>
      have hlater := unshown_later q.later
      apply Shows.inner
      · obtain ⟨opening, later, span⟩ := q
        simp only [outlineNode, outlineSubquery, outlineStages_eq, Node.children_subquery,
          List.map_cons, List.map_map, Function.comp_def, Outline.children, Subquery.opening,
          Subquery.later]
      · simp [Node.children_subquery]
      · simp only [Node.parts, List.mem_append, List.mem_cons, List.not_mem_nil, or_false]
        rintro part (((rfl | rfl) | hmem) | rfl)
        · simp
        · trivial
        · exact hlater part hmem
        · simp

-- The pipeline itself is shown with its stages.
theorem outline_eq : query.outline = .node "query" (query.compactText query.pipeline.span)
    (((rootParts query.pipeline).filterMap Part.node?).map query.outlineNode) := by
  rw [outline, outlineStages_eq, filterMap_rootParts, List.map_cons, List.map_map]
  rfl

theorem unshown_root (pipeline : Pipeline) : ∀ part ∈ rootParts pipeline, part.Unshown := by
  intro part hmem
  rw [rootParts, List.mem_cons] at hmem
  rcases hmem with rfl | hmem
  · trivial
  · exact unshown_later _ part hmem

end Query

end SearchPipeline
