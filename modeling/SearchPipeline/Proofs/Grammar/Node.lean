import SearchPipeline.Grammar.Parse

namespace SearchPipeline

def ArithOp.kind : ArithOp → Kind
  | pow => .caret
  | mult => .star
  | mod => .percent
  | div => .slash
  | add => .plus
  | sub => .minus

theorem ArithOp.ofKind?_eq_some {kind : Kind} {op : ArithOp} (h : ofKind? kind = some op) :
    kind = op.kind := by
  cases kind <;> cases h <;> rfl

theorem Expr.asName?_eq_some {expr : Expr} {name : Name} :
    expr.asName? = some name ↔ expr = .value (.name name) := by
  constructor
  · intro h
    unfold asName? at h
    split at h
    · cases h
      rfl
    · cases h
  · rintro rfl
    rfl

def CompareOp.kind : CompareOp → Kind
  | eq => .eq
  | ne => .ne
  | gt => .gt
  | lt => .lt
  | ge => .ge
  | le => .le

theorem CompareOp.ofKind?_eq_some {kind : Kind} {op : CompareOp} (h : ofKind? kind = some op) :
    kind = op.kind := by
  cases kind <;> cases h <;> rfl

def OutputMode.kind : OutputMode → Kind
  | replace => .output
  | fill => .outputNew

-- The kinds of token that a name of each use may have. A word that is a command and a function
-- counts as a command.
def NameUse.kinds : NameUse → List Kind
  | field => [.word]
  | command => [.openingCommand, .commandOrFunction, .command]
  | function => [.like, .modifierOrFunction, .timeOrFunction, .function]

-- The kinds of token that the grammar has a place for. A colon or an at-sign on its own has none.
def Kind.isGrammatical : Kind → Bool
  | colon | atSign | blank | comment | finish => false
  | _ => true

theorem Kind.ne_finish {kind : Kind} (h : kind.isGrammatical = true) : kind ≠ finish := by
  rintro rfl
  cases h

-- The same kinds without the brackets of subqueries.
def Kind.isFlat : Kind → Bool
  | openBracket | closeBracket => false
  | kind => kind.isGrammatical

theorem Kind.isGrammatical_of_isFlat {kind : Kind} (h : kind.isFlat = true) :
    kind.isGrammatical = true := by
  cases kind <;> first | rfl | cases h

-- The stages of a subquery are smaller than the stage it ends.
theorem Stage.sizeOf_inner_lt {stage inner : Stage} {subquery : Subquery}
    (hsub : stage.subquery = some subquery) (hinner : inner ∈ subquery.opening :: subquery.later) :
    sizeOf inner < sizeOf stage := by
  obtain ⟨piped, command, operations, _, span⟩ := stage
  obtain ⟨opening, later, inside⟩ := subquery
  cases hsub
  simp only [Subquery.opening, Subquery.later, List.mem_cons] at hinner
  rcases hinner with rfl | hmem
  · simp +arith
  · have hlt := List.sizeOf_lt_of_mem hmem
    simp +arith
    omega

namespace Grammar

theorem nameUse?_eq_some {kind : Kind} {use : NameUse} (h : nameUse? kind = some use) :
    kind ∈ use.kinds := by
  cases kind <;> cases h <;> decide

-- The tokens that may stand at the head of a call.
def functionKinds : List Kind :=
  [.like, .commandOrFunction, .modifierOrFunction, .timeOrFunction, .function]

theorem mem_functionKinds {kind : Kind} (h : kind.isFunction = true) : kind ∈ functionKinds := by
  cases kind <;> first | decide | cases h

-- The nodes of a tree. The first stage of a pipeline has a form of its own.
inductive Node where
  | name (name : Name)
  | function (function : FunctionName)
  | command (command : Command)
  | value (value : Value)
  | expr (expr : Expr)
  | operation (operation : Operation)
  | opening (stage : Stage)
  | stage (stage : Stage)
  | subquery (subquery : Subquery)

-- A piece of a right-hand side.
inductive Part where
  | token (kinds : List Kind)
  | optional (kinds : List Kind)
  | node (node : Node)

namespace Part

def node? : Part → Option Node
  | node inner => some inner
  | _ => none

-- Whether the piece takes a token for certain.
def isSolid : Part → Bool
  | optional _ => false
  | _ => true

end Part

def separated (between : Part) : List Node → List Part
  | [] => []
  | first :: rest => .node first :: rest.flatMap fun node => [between, .node node]

theorem separated_concat (between : Part) (first : Node) (rest : List Node) (last : Node) :
    separated between (first :: (rest ++ [last])) =
      separated between (first :: rest) ++ [between, .node last] := by
  simp [separated]

-- body := (operation ','?)* subquery?
def bodyParts (operations : List Operation) (subquery : Option Subquery) : List Part :=
  operations.flatMap (fun operation => [.node (.operation operation), .optional [.comma]]) ++
    subquery.toList.map (.node ∘ .subquery)

-- ('|' stage)*
def laterParts (later : List Stage) : List Part :=
  later.flatMap fun stage => [.token [.pipe], .node (.stage stage)]

namespace Node

def span : Node → Span
  | name n => n.span
  | function f => f.span
  | command c => c.span
  | value v => v.span
  | expr e => e.span
  | operation o => o.span
  | opening s | stage s => s.span
  | subquery q => q.span

-- The text that a leaf has stored.
def text? : Node → Option String
  | name n => some n.text
  | function f => some f.text
  | command c => some c.name
  | value (.name _) => none
  | value v => some v.text
  | _ => none

def valueParts : Value → List Part
  | .time _ _ => [.token [.time, .timeOrFunction]]
  | .string _ _ => [.token [.string]]
  | .name n => [.node (.name n)]
  | .number _ _ => [.optional [.plus, .minus], .token [.number]]

def exprParts : Expr → List Part
  | .value v => [.node (.value v)]
  | .call f args _ =>
      [.node (.function f), .token [.openParen]] ++
        separated (.token [.comma]) (args.map .expr) ++ [.token [.closeParen]]
  | .paren inner _ => [.token [.openParen], .node (.expr inner), .token [.closeParen]]
  | .contains inner _ => [.token [.star], .node (.expr inner), .token [.star]]
  | .endsWith inner _ => [.token [.star], .node (.expr inner)]
  | .startsWith inner _ => [.node (.expr inner), .token [.star]]
  | .wildcard _ => [.token [.star]]
  | .path names _ => names.flatMap fun n => [.token [.slash], .node (.name n)]
  | .binary op lhs rhs => [.node (.expr lhs), .token [op.kind], .node (.expr rhs)]

def operationParts : Operation → List Part
  | .like e pattern _ => [.node (.expr e), .token [.like], .node (.value pattern)]
  | .within e items _ =>
      [.node (.expr e), .token [.within], .token [.openParen]] ++
        separated (.token [.comma]) (items.map .expr) ++ [.token [.closeParen]]
  | .not inner _ => [.token [.neg], .node (.operation inner)]
  | .output inputs mode outputs _ =>
      inputs.map (.node ∘ .expr) ++ [.token [mode.kind]] ++
        separated (.token [.comma]) (outputs.map .name)
  | .grouping names _ => .token [.grouping] :: separated (.optional [.comma]) (names.map .name)
  | .rename e target _ => [.node (.expr e), .token [.aliasing], .node (.name target)]
  | .compare field op e _ => [.node (.name field), .token [op.kind], .node (.expr e)]
  | .bare e _ => [.node (.expr e)]
  | .paren inner _ => [.token [.openParen], .node (.operation inner), .token [.closeParen]]
  | .and lhs rhs => [.node (.operation lhs), .token [.conj], .node (.operation rhs)]
  | .or lhs rhs => [.node (.operation lhs), .token [.disj], .node (.operation rhs)]

-- The right-hand side of a node.
def parts : Node → List Part
  | name n => [.token n.use.kinds]
  | function _ => [.token functionKinds]
  | command c => [.token [c.kind]]
  | value v => valueParts v
  | expr e => exprParts e
  | operation o => operationParts o
  | opening s =>
      (if s.piped then [.token [.pipe]] else []) ++ s.command.toList.map (.node ∘ .command) ++
        bodyParts s.operations s.subquery
  | stage s =>
      s.command.toList.map (.node ∘ .command) ++ bodyParts s.operations s.subquery
  | subquery q =>
      [.token [.openBracket], .node (.opening q.opening)] ++ laterParts q.later ++
        [.token [.closeBracket]]

-- The direct parts that are nodes, left to right.
def children (node : Node) : List Node := node.parts.filterMap Part.node?

def HasBody (s : Stage) : Prop := s.operations ≠ [] ∨ s.subquery ≠ none

-- What the grammar asks of a node besides the order of its parts: how many of them there are, and
-- which commands may stand where.
def Legal : Node → Prop
  | command c => c.kind.isCommand = true
  | expr (.path names _) => names ≠ []
  | operation (.output inputs _ outputs _) =>
      inputs.length = outputs.length ∧ 1 ≤ inputs.length ∧ inputs.length ≤ 3
  | operation (.grouping names _) => names ≠ []
  | opening s => HasBody s ∧ ∀ c, s.command = some c → c.kind = .openingCommand
  | stage s => HasBody s ∧ s.command ≠ none ∧ s.piped = false
  | _ => True

end Node

-- The texts of the tokens between two positions, without what separates them.
def Tape.textBetween (tape : Tape) (first stop : Nat) : String :=
  String.join ((List.range' first (stop - first)).map fun pos => (tape.mark pos).text)

theorem Tape.textBetween_append {tape : Tape} {first mid stop : Nat} (hfirst : first ≤ mid)
    (hstop : mid ≤ stop) : tape.textBetween first stop =
      tape.textBetween first mid ++ tape.textBetween mid stop := by
  obtain ⟨left, rfl⟩ := Nat.exists_eq_add_of_le hfirst
  obtain ⟨right, rfl⟩ := Nat.exists_eq_add_of_le hstop
  rw [textBetween, textBetween, textBetween, ← String.join_append, ← List.map_append,
    Nat.add_sub_cancel_left, Nat.add_sub_cancel_left, List.range'_append_1, Nat.add_assoc,
    Nat.add_sub_cancel_left]

-- What a node between two positions says about itself is true.
structure Node.Fits (tape : Tape) (node : Node) (first stop : Nat) : Prop where
  span : node.span = tape.span first stop
  text : ∀ text, node.text? = some text → text = tape.textBetween first stop
  legal : node.Legal

-- The significant tokens between two positions are what the parts spell.
inductive Spells (tape : Tape) : List Part → Nat → Nat → Prop where
  | nil {pos : Nat} : Spells tape [] pos pos
  | token {kinds : List Kind} {rest : List Part} {pos stop : Nat} :
      tape.kind pos ∈ kinds → Spells tape rest (pos + 1) stop →
      Spells tape (.token kinds :: rest) pos stop
  | skip {kinds : List Kind} {rest : List Part} {pos stop : Nat} :
      Spells tape rest pos stop → Spells tape (.optional kinds :: rest) pos stop
  | take {kinds : List Kind} {rest : List Part} {pos stop : Nat} :
      tape.kind pos ∈ kinds → Spells tape rest (pos + 1) stop →
      Spells tape (.optional kinds :: rest) pos stop
  | node {node : Node} {rest : List Part} {pos mid stop : Nat} :
      Spells tape node.parts pos mid → node.Fits tape pos mid → Spells tape rest mid stop →
      Spells tape (.node node :: rest) pos stop

structure Derives (tape : Tape) (node : Node) (first stop : Nat) : Prop where
  spells : Spells tape node.parts first stop
  fits : node.Fits tape first stop

namespace Spells

variable {tape : Tape} {parts others : List Part} {kinds : List Kind} {node : Node}
  {pos first stop : Nat}

@[simp] theorem nil_iff : Spells tape [] first stop ↔ first = stop := by
  constructor
  · rintro ⟨⟩
    rfl
  · rintro rfl
    exact .nil

@[simp] theorem token_iff : Spells tape (.token kinds :: parts) first stop ↔
    tape.kind first ∈ kinds ∧ Spells tape parts (first + 1) stop := by
  constructor
  · rintro ⟨⟩
    exact ⟨‹_›, ‹_›⟩
  · rintro ⟨hkind, hrest⟩
    exact .token hkind hrest

@[simp] theorem optional_iff : Spells tape (.optional kinds :: parts) first stop ↔
    Spells tape parts first stop ∨ tape.kind first ∈ kinds ∧ Spells tape parts (first + 1) stop := by
  constructor
  · intro h
    cases h with
    | skip hrest => exact .inl hrest
    | take hkind hrest => exact .inr ⟨hkind, hrest⟩
  · rintro (hrest | ⟨hkind, hrest⟩)
    · exact .skip hrest
    · exact .take hkind hrest

@[simp] theorem node_iff : Spells tape (.node node :: parts) first stop ↔
    ∃ mid, Derives tape node first mid ∧ Spells tape parts mid stop := by
  constructor
  · intro h
    cases h with
    | node hparts hfits hrest => exact ⟨_, ⟨hparts, hfits⟩, hrest⟩
  · rintro ⟨mid, hnode, hrest⟩
    exact .node hnode.spells hnode.fits hrest

@[simp] theorem append_iff : Spells tape (parts ++ others) first stop ↔
    ∃ mid, Spells tape parts first mid ∧ Spells tape others mid stop := by
  induction parts generalizing first with
  | nil => simp
  | cons part parts ih =>
      cases part with
      | token kinds => simp [ih, and_assoc]
      | optional kinds =>
          simp only [List.cons_append, optional_iff, ih]
          constructor
          · rintro (⟨mid, hleft, hright⟩ | ⟨hkind, mid, hleft, hright⟩)
            · exact ⟨mid, .inl hleft, hright⟩
            · exact ⟨mid, .inr ⟨hkind, hleft⟩, hright⟩
          · rintro ⟨mid, hleft | ⟨hkind, hleft⟩, hright⟩
            · exact .inl ⟨mid, hleft, hright⟩
            · exact .inr ⟨hkind, mid, hleft, hright⟩
      | node node =>
          simp only [List.cons_append, node_iff, ih]
          constructor
          · rintro ⟨inner, hnode, mid, hleft, hright⟩
            exact ⟨mid, ⟨inner, hnode, hleft⟩, hright⟩
          · rintro ⟨mid, ⟨inner, hnode, hleft⟩, hright⟩
            exact ⟨inner, hnode, mid, hleft, hright⟩

theorem le (h : Spells tape parts first stop) : first ≤ stop := by
  induction h with
  | nil => exact Nat.le_refl _
  | token _ _ ih => omega
  | skip _ ih => exact ih
  | take _ _ ih => omega
  | node _ _ _ ihparts ihrest => omega

end Spells

-- The tokens that a part names are ones that the grammar has a place for.
def Part.Plain : Part → Prop
  | token kinds | optional kinds => ∀ kind ∈ kinds, kind.isGrammatical = true
  | node _ => True

-- And none of them is a bracket.
def Part.Flat : Part → Prop
  | token kinds | optional kinds => ∀ kind ∈ kinds, kind.isFlat = true
  | node _ => True

theorem Part.Flat.plain {part : Part} (h : part.Flat) : part.Plain := by
  cases part with
  | node _ => trivial
  | token kinds | optional kinds =>
      exact fun kind hkind => Kind.isGrammatical_of_isFlat (h kind hkind)

-- What holds of all nodes, and of what stands between them, holds of every part of a list of nodes.
section Lists

variable {P : Part → Prop} (hnode : ∀ node, P (.node node))

include hnode

theorem forall_mem_separated {between : Part} (h : P between) (nodes : List Node) :
    ∀ part ∈ separated between nodes, P part := by
  cases nodes with
  | nil => exact List.forall_mem_nil _
  | cons first rest =>
      refine List.forall_mem_cons.2 ⟨hnode first, fun part hmem => ?_⟩
      obtain ⟨node, -, hpart⟩ := List.mem_flatMap.1 hmem
      exact List.forall_mem_cons.2 ⟨h, List.forall_mem_singleton.2 (hnode node)⟩ part hpart

theorem forall_mem_body (h : P (.optional [.comma])) (operations : List Operation)
    (subquery : Option Subquery) : ∀ part ∈ bodyParts operations subquery, P part := by
  refine List.forall_mem_append.2 ⟨fun part hmem => ?_, fun part hmem => ?_⟩
  · obtain ⟨operation, -, hpart⟩ := List.mem_flatMap.1 hmem
    exact List.forall_mem_cons.2 ⟨hnode _, List.forall_mem_singleton.2 h⟩ part hpart
  · obtain ⟨subquery, -, rfl⟩ := List.mem_map.1 hmem
    exact hnode _

theorem forall_mem_later (h : P (.token [.pipe])) (later : List Stage) :
    ∀ part ∈ laterParts later, P part := by
  intro part hmem
  obtain ⟨stage, -, hpart⟩ := List.mem_flatMap.1 hmem
  exact List.forall_mem_cons.2 ⟨h, List.forall_mem_singleton.2 (hnode _)⟩ part hpart

end Lists

section Flat

attribute [local simp] Part.Plain Part.Flat Kind.isFlat Kind.isGrammatical

theorem flat_separated {between : Part} (h : between.Flat) (nodes : List Node) :
    ∀ part ∈ separated between nodes, part.Flat := forall_mem_separated (fun _ => trivial) h nodes

theorem flat_body (operations : List Operation) (subquery : Option Subquery) :
    ∀ part ∈ bodyParts operations subquery, part.Flat :=
  forall_mem_body (fun _ => trivial) (by simp) operations subquery

theorem flat_later (later : List Stage) : ∀ part ∈ laterParts later, part.Flat :=
  forall_mem_later (fun _ => trivial) (by simp) later

namespace Node

theorem flat_valueParts (v : Value) : ∀ part ∈ valueParts v, part.Flat := by
  cases v <;> simp [valueParts]

theorem flat_exprParts (e : Expr) : ∀ part ∈ exprParts e, part.Flat := by
  have hcomma : (Part.token [.comma]).Flat := by simp
  cases e with
  | call f args span =>
      have hargs := flat_separated hcomma (args.map .expr)
      simp only [exprParts, List.mem_append, List.mem_cons]
      rintro part (((rfl | rfl | hmem) | hmem) | rfl | hmem)
      · trivial
      · simp
      · cases hmem
      · exact hargs part hmem
      · simp
      · cases hmem
  | path names span =>
      simp only [exprParts, List.mem_flatMap, List.mem_cons]
      rintro part ⟨n, -, rfl | rfl | hmem⟩
      · simp
      · trivial
      · cases hmem
  | binary op lhs rhs => cases op <;> simp [exprParts, ArithOp.kind]
  | _ => simp [exprParts]

theorem flat_operationParts (o : Operation) : ∀ part ∈ operationParts o, part.Flat := by
  have hcomma : (Part.token [.comma]).Flat := by simp
  cases o with
  | within e items span =>
      have hitems := flat_separated hcomma (items.map .expr)
      simp only [operationParts, List.mem_append, List.mem_cons]
      rintro part (((rfl | rfl | rfl | hmem) | hmem) | rfl | hmem)
      · trivial
      · simp
      · simp
      · cases hmem
      · exact hitems part hmem
      · simp
      · cases hmem
  | output inputs mode outputs span =>
      have houtputs := flat_separated hcomma (outputs.map .name)
      simp only [operationParts, List.mem_append, List.mem_map, List.mem_cons]
      rintro part ((⟨e, -, rfl⟩ | rfl | hmem) | hmem)
      · trivial
      · cases mode <;> simp [OutputMode.kind]
      · cases hmem
      · exact houtputs part hmem
  | grouping names span =>
      have hnames := flat_separated (show (Part.optional [.comma]).Flat from hcomma) (names.map .name)
      simp only [operationParts, List.mem_cons]
      rintro part (rfl | hmem)
      · simp
      · exact hnames part hmem
  | compare field op e span =>
      cases op <;> simp [operationParts, CompareOp.kind]
  | _ => simp [operationParts]

-- A node that is no subquery names no brackets.
theorem flat_parts {node : Node} (h : node.Legal) (hflat : ∀ q, node ≠ .subquery q) :
    ∀ part ∈ node.parts, part.Flat := by
  cases node with
  | name n => cases huse : n.use <;> simp [parts, huse, NameUse.kinds]
  | function f => simp [parts, functionKinds]
  | command c =>
      cases hkind : c.kind <;>
        simp [Legal, hkind, Kind.isCommand, parts] at h ⊢
  | value v => exact flat_valueParts v
  | expr e => exact flat_exprParts e
  | operation o => exact flat_operationParts o
  | opening s =>
      have hbody := flat_body s.operations s.subquery
      simp only [parts, List.mem_append, List.mem_map]
      rintro part ((hmem | ⟨c, -, rfl⟩) | hmem)
      · split at hmem
        · cases List.mem_singleton.1 hmem
          simp
        · cases hmem
      · trivial
      · exact hbody part hmem
  | stage s =>
      have hbody := flat_body s.operations s.subquery
      simp only [parts, List.mem_append, List.mem_map]
      rintro part (⟨c, -, rfl⟩ | hmem)
      · trivial
      · exact hbody part hmem
  | subquery q => exact absurd rfl (hflat q)

theorem plain_parts {node : Node} (h : node.Legal) : ∀ part ∈ node.parts, part.Plain := by
  cases node with
  | subquery q =>
      simp only [parts, List.mem_append, List.mem_cons]
      rintro part (((rfl | rfl | hmem) | hmem) | rfl | hmem)
      · simp
      · trivial
      · cases hmem
      · exact (flat_later q.later part hmem).plain
      · simp
      · cases hmem
  | _ => exact fun part hpart => (flat_parts h (fun _ => Node.noConfusion) part hpart).plain

end Node

end Flat

namespace Node

-- Every node takes a token: it has a part that does.
theorem exists_solid {node : Node} (h : node.Legal) : ∃ part ∈ node.parts, part.isSolid = true := by
  have hbody : ∀ s : Stage, HasBody s →
      ∃ part ∈ bodyParts s.operations s.subquery, part.isSolid = true := by
    rintro s (hoperations | hsubquery)
    · obtain ⟨o, rest, ho⟩ := List.exists_cons_of_ne_nil hoperations
      exact ⟨.node (.operation o), by simp [bodyParts, ho], rfl⟩
    · obtain ⟨q, hq⟩ := Option.ne_none_iff_exists'.1 hsubquery
      exact ⟨.node (.subquery q), by simp [bodyParts, hq], rfl⟩
  cases node with
  | value v => cases v <;> simp [parts, valueParts, Part.isSolid]
  | expr e =>
      cases e with
      | path names span =>
          obtain ⟨n, rest, hn⟩ := List.exists_cons_of_ne_nil h
          exact ⟨.token [.slash], by simp [parts, exprParts, hn], rfl⟩
      | _ => simp [parts, exprParts, Part.isSolid]
  | operation o =>
      cases o with
      | output inputs mode outputs span =>
          exact ⟨.token [mode.kind], by simp [parts, operationParts], rfl⟩
      | _ => simp [parts, operationParts, Part.isSolid]
  | opening s =>
      obtain ⟨part, hmem, hsolid⟩ := hbody s h.1
      exact ⟨part, by simp [parts, hmem], hsolid⟩
  | stage s =>
      obtain ⟨part, hmem, hsolid⟩ := hbody s h.1
      exact ⟨part, by simp [parts, hmem], hsolid⟩
  | _ => simp [parts, Part.isSolid]

end Node

namespace Spells

variable {tape : Tape} {parts : List Part} {node : Node} {pos first stop : Nat}

theorem lt_of_solid (h : Spells tape parts first stop)
    (hsolid : ∃ part ∈ parts, part.isSolid = true) : first < stop := by
  induction h with
  | nil => simp at hsolid
  | token _ hrest _ =>
      have := hrest.le
      omega
  | skip _ ih => exact ih (by simpa [Part.isSolid] using hsolid)
  | take _ hrest _ =>
      have := hrest.le
      omega
  | node _ hfits hrest ihparts _ =>
      have := ihparts (Node.exists_solid hfits.legal)
      have := hrest.le
      omega

-- Every token in a derivation is of a kind that the grammar has a place for.
theorem grammatical (h : Spells tape parts first stop) (hplain : ∀ part ∈ parts, part.Plain)
    (hfirst : first ≤ pos) (hstop : pos < stop) : (tape.kind pos).isGrammatical = true := by
  induction h with
  | nil => omega
  | @token kinds rest first stop hkind hrest ih =>
      rcases Nat.eq_or_lt_of_le hfirst with rfl | hlt
      · exact hplain _ List.mem_cons_self _ hkind
      · exact ih (fun part hpart => hplain part (List.mem_cons_of_mem _ hpart)) hlt hstop
  | skip _ ih => exact ih (fun part hpart => hplain part (List.mem_cons_of_mem _ hpart)) hfirst hstop
  | @take kinds rest first stop hkind hrest ih =>
      rcases Nat.eq_or_lt_of_le hfirst with rfl | hlt
      · exact hplain _ List.mem_cons_self _ hkind
      · exact ih (fun part hpart => hplain part (List.mem_cons_of_mem _ hpart)) hlt hstop
  | @node node rest first mid stop _ hfits hrest ihparts ihrest =>
      rcases Nat.lt_or_ge pos mid with hlt | hge
      · exact ihparts (Node.plain_parts hfits.legal) hfirst hlt
      · exact ihrest (fun part hpart => hplain part (List.mem_cons_of_mem _ hpart)) hge hstop

end Spells

namespace Derives

variable {tape : Tape} {node : Node} {pos first stop : Nat}

theorem lt (h : Derives tape node first stop) : first < stop :=
  h.spells.lt_of_solid (Node.exists_solid h.fits.legal)

theorem grammatical (h : Derives tape node first stop) (hfirst : first ≤ pos)
    (hstop : pos < stop) : (tape.kind pos).isGrammatical = true :=
  h.spells.grammatical (Node.plain_parts h.fits.legal) hfirst hstop

-- A node that is one token and nothing else.
theorem token_of_parts {kinds : List Kind} (h : Derives tape node first stop)
    (hparts : node.parts = [.token kinds]) : tape.kind first ∈ kinds ∧ stop = first + 1 := by
  have hspells := h.spells
  rw [hparts, Spells.token_iff, Spells.nil_iff] at hspells
  exact ⟨hspells.1, hspells.2.symm⟩

end Derives

end Grammar

end SearchPipeline
