import SearchPipeline.Proofs.Print.ReadOperation

namespace SearchPipeline

open Grammar Rule

-- The stage that searches for an operation, with its command or without.
def Stage.search (named : Bool) (o : Operation) : Stage :=
  .mk false (if named then some ⟨"search", .openingCommand, ⟨0, 0⟩⟩ else none) [o] none ⟨0, 0⟩

def Operation.query (gap : Nat) (named : Bool) (o : Operation) : String :=
  (if named then "search " else "") ++ o.print gap

def Operation.querySigns (gap : Nat) (named : Bool) (o : Operation) : List Sign :=
  if named then ⟨0, .openingCommand, "search"⟩ :: o.signs gap 1 else o.signs gap 0

section Text

variable {o : Operation}

-- The blanks before an operation are printed before all else.
theorem Operation.Printable.spell_signs (h : o.Printable) (gap blanks : Nat) :
    Sign.spell (o.signs gap blanks) =
      List.replicate blanks ' ' ++ Sign.spell (o.signs gap 0) := by
  induction h with
  | compare _ _ _ | not _ _ | paren _ _ => simp [signs, Sign.gap]
  | and _ _ ih _ | or _ _ ih _ => simp only [signs, Scan.spell_append, ih, List.append_assoc]

theorem Operation.Printable.query_eq (h : o.Printable) (gap : Nat) (named : Bool) :
    o.query gap named = String.ofList (Sign.spell (o.querySigns gap named)) := by
  rw [← String.toList_inj, query, querySigns, print]
  cases named with
  | false => simp
  | true => simp [h.spell_signs gap 1, Sign.gap]

theorem Operation.Printable.querySigns_ne_nil (h : o.Printable) (gap : Nat) (named : Bool) :
    o.querySigns gap named ≠ [] := by
  cases named with
  | false => exact h.signs_ne_nil gap 0
  | true => exact List.cons_ne_nil _ _

theorem Operation.Printable.legible_query (h : o.Printable) (gap : Nat) (named : Bool) :
    Scan.Legible (o.querySigns gap named) [] := by
  cases named with
  | false => exact h.legible gap 0 [] rfl
  | true =>
      obtain ⟨sign, signs, hsigns, hblanks, -⟩ := h.head gap 1
      rw [querySigns, if_pos rfl]
      refine ⟨?_, h.legible gap 1 [] rfl⟩
      rw [hsigns]
      exact lexes_keyword (by decide) hblanks

end Text

namespace Grammar

section Stage

variable {tape : Tape} {o : Operation} {gap room blanks pos : Nat}

theorem body_reads (hot : tape.Orderly) (hprintable : o.Printable)
    (ho : ReadsOperation tape gap 0 ((tier false room).operation 0) o)
    (hshows : tape.Shows (o.signs gap blanks) pos)
    (hfinish : tape.kind (pos + (o.signs gap blanks).length) = .finish) :
    ∃ read, read.relabel .unplaced = o.relabel .unplaced ∧
      Gives tape pos (body (tier false room))
        (.done ([read], none) (pos + (o.signs gap blanks).length)) := by
  have hclosed : ∀ least, Closed tape least (pos + (o.signs gap blanks).length) :=
    closed_of_kind (by rw [hfinish]; rfl)
  obtain ⟨read, hread, hgives⟩ := ho blanks pos hshows
    (Tape.quiet_of_kind (by rw [hfinish]; rfl) 0) (hclosed 0) fun _ => hclosed notStrength
  obtain ⟨sign, signs, hsigns, -, hhead⟩ := hprintable.head gap blanks
  have hne := hprintable.signs_ne_nil gap blanks
  have hlt : pos < pos + (o.signs gap blanks).length :=
    Nat.lt_add_of_pos_right (List.length_pos_iff.2 hne)
  have hopens : opensOperation (tape.kind pos) = true := by
    rw [hsigns] at hshows
    rw [hshows.1.kind]
    have hkinds : ∀ kind ∈ [Kind.word, .neg, .openParen], opensOperation kind = true := by decide
    exact hkinds _ hhead
  have hstep : Gives tape pos (operand? (tier false room) [])
      (.done (some [read]) (pos + (o.signs gap blanks).length)) := by
    refine Gives.peek_bind rfl ?_
    rw [if_pos hopens]
    exact hgives.bind (Gives.eat_other (by rw [hfinish]; decide) (.pure _))
  have hend : Gives tape (pos + (o.signs gap blanks).length) (operand? (tier false room) [read])
      (.done none (pos + (o.signs gap blanks).length)) := by
    refine Gives.peek_bind hfinish ?_
    rw [if_neg (by decide)]
    exact .pure none
  have hoperands : Gives tape pos (repeatStep (operand? (tier false room)) [])
      (.done [read] (pos + (o.signs gap blanks).length)) :=
    ((Gives.pure []).climbs.more hlt hstep).gives (Nat.le_of_lt (hshows.lt_size hot hne)) hend
  have hsubquery : Gives tape (pos + (o.signs gap blanks).length) (subquery? (tier false room))
      (.done none (pos + (o.signs gap blanks).length)) := by
    refine Gives.peek_bind hfinish ?_
    rw [if_neg (by decide)]
    exact .pure none
  exact ⟨read, hread, hoperands.bind (hsubquery.bind (.pure _))⟩

theorem relabel_search {named : Bool} {command : Option Command} {read : Operation} {span : Span}
    (hcommand : command.map (·.relabel .unplaced) =
      if named then some ⟨"search", .openingCommand, ⟨0, 0⟩⟩ else none)
    (hread : read.relabel .unplaced = o.relabel .unplaced) :
    (Stage.mk false command [read] none span).relabel .unplaced =
      (Stage.search named o).relabel .unplaced := by
  rw [Stage.search, Stage.relabel_mk, Stage.relabel_mk, hcommand]
  cases named <;> simp [hread, Command.relabel]

theorem opening_reads (named : Bool) (hot : tape.Orderly) (hprintable : o.Printable)
    (ho : ReadsOperation tape gap 0 ((tier false room).operation 0) o)
    (hshows : tape.Shows (o.querySigns gap named) 0)
    (hfinish : tape.kind (o.querySigns gap named).length = .finish) :
    ∃ stage, stage.relabel .unplaced = (Stage.search named o).relabel .unplaced ∧
      Gives tape 0 (opening (tier false room)) (.done stage (o.querySigns gap named).length) := by
  cases named with
  | false =>
      have hkinds : ∀ kind ∈ [Kind.word, .neg, .openParen],
          kind ≠ .pipe ∧ kind ≠ .openingCommand := by decide
      obtain ⟨sign, signs, hsigns, -, hhead⟩ := hprintable.head gap 0
      have hkind : tape.kind 0 ∈ [Kind.word, .neg, .openParen] := by
        have hfirst : tape.Shows (o.signs gap 0) 0 := hshows
        rw [hsigns] at hfirst
        rwa [hfirst.1.kind]
      obtain ⟨hpipe, hcommand⟩ := hkinds _ hkind
      rw [show (o.querySigns gap false).length = 0 + (o.signs gap 0).length by
        rw [Nat.zero_add]; rfl] at hfinish ⊢
      obtain ⟨read, hread, hbody⟩ := body_reads hot hprintable ho hshows hfinish
      have hskip : Gives tape 0 (openingWithCommand (tier false room)) (.stuck 0) := by
        refine Gives.peek_bind rfl ?_
        rw [if_neg hcommand]
        exact .refuse
      have halternatives : Gives tape 0 (firstOf [openingWithCommand (tier false room),
          do return (none, ← body (tier false room))])
          (.done (none, [read], none) (0 + (o.signs gap 0).length)) :=
        hskip.attempt_stuck.bind (hbody.bind (.pure _))
      refine ⟨_, ?_, Gives.position_bind (Gives.eat_other hpipe
        (Gives.bind halternatives (Gives.spanFrom_bind (.pure _))))⟩
      exact relabel_search rfl hread
  | true =>
      obtain ⟨hsearch, hrest⟩ := hshows
      have hkind : tape.kind 0 = .openingCommand := hsearch.kind
      rw [show (o.querySigns gap true).length = 1 + (o.signs gap 1).length from
        Nat.add_comm _ _] at hfinish ⊢
      obtain ⟨read, hread, hbody⟩ := body_reads hot hprintable ho hrest hfinish
      have hcommand : Gives tape 0 command
          (.done ⟨"search", .openingCommand, .single (tape.index 0)⟩ 1) := by
        refine Gives.peek_bind hkind ?_
        rw [if_pos (by decide)]
        refine Gives.advance_bind hot hsearch.inside ?_
        rw [hsearch.text]
        exact .pure _
      have hopening : Gives tape 0 (openingWithCommand (tier false room))
          (.done (some ⟨"search", .openingCommand, .single (tape.index 0)⟩, [read], none)
            (1 + (o.signs gap 1).length)) := by
        refine Gives.peek_bind hkind ?_
        rw [if_pos rfl]
        exact hcommand.bind (hbody.bind (.pure _))
      have hpipe : tape.kind 0 ≠ .pipe := by
        rw [hkind]
        decide
      refine ⟨_, ?_, Gives.position_bind (Gives.eat_other hpipe
        (Gives.bind hopening.firstOf_take (Gives.spanFrom_bind (.pure _))))⟩
      exact relabel_search rfl hread

end Stage

section Pipeline

variable (source : String) {tape : Tape} {room : Nat} {stage : Stage} {stop : Nat}

-- A pipeline whose opening ends where the tape ends is that opening.
theorem finish_of_opening (h : Gives tape 0 (opening (tier false room)) (.done stage stop))
    (hfinish : tape.kind stop = .finish) (fuel : Nat) :
    finish source tape (readStages (tier false room) source tape fuel
      (readOpening (tier false room) source tape)) =
        .ok ⟨stage, [], ⟨tape.index 0, tape.index stop⟩⟩ := by
  obtain ⟨notes, hplays⟩ := h
  have hreply := hplays {} rfl
  have hdeep : (({} : Trail).follow notes).tooDeep = none := Trail.follow_tooDeep _ _
  generalize ({} : Trail).follow notes = trail at hreply hdeep
  have hopening : readOpening (tier false room) source tape =
      { pos := stop, trail, opening := some stage } := by
    unfold readOpening
    rw [hreply]
    rfl
  have hstages : readStages (tier false room) source tape fuel
      (readOpening (tier false room) source tape) =
        { pos := stop, trail, opening := some stage } := by
    rw [hopening]
    cases fuel with
    | zero => rfl
    | succ fuel => simp only [readStages, readLater?, hfinish]
  rw [hstages]
  simp only [finish, hdeep, List.reverse_nil]

end Pipeline

end Grammar

-- The text of an operation has tokens, and without memory they are read as one stage.
theorem Operation.Printable.query_reads {o : Operation} (hprintable : o.Printable) (gap : Nat)
    (named : Bool) (hgraded : (Node.operation o).GradedWithin) (hcloses : o.closes = true)
    (hsteps : o.steps + 2 ≤ maxNesting) :
    ∃ tokens stage span, Scan.tokens (o.query gap named) = .ok tokens ∧
      1 < (Scan.solids 0 tokens).length ∧
      Grammar.pipelineWith false (o.query gap named) tokens = .ok ⟨stage, [], span⟩ ∧
      stage.relabel .unplaced = (Stage.search named o).relabel .unplaced := by
  have hlegible := hprintable.legible_query gap named
  obtain ⟨tokens, htokens⟩ : ∃ tokens, tokens = Sign.tokens 0 (o.querySigns gap named) := ⟨_, rfl⟩
  obtain ⟨source, hsource⟩ : ∃ source, source = o.query gap named := ⟨_, rfl⟩
  have hscan : Scan.tokens source = .ok tokens := by
    rw [Scan.tokens_eq_ok_iff, hsource, htokens, hprintable.query_eq, String.toList_ofList]
    exact hlegible.scans none 0
  obtain ⟨hshows, hfinish⟩ := Tape.shows_tokens source hlegible
  rw [← htokens] at hshows hfinish
  have hot := Tape.ofTokens_orderly source tokens
  have ho : ReadsOperation (Tape.ofTokens source tokens) gap 0
      ((tier false maxNesting).operation 0) o := hprintable.reads hot hgraded hcloses hsteps
  obtain ⟨stage, hstage, hopening⟩ := opening_reads named hot hprintable ho hshows hfinish
  have hsome : 1 < (Scan.solids 0 tokens).length := by
    have hlength := List.length_pos_iff.2 (hprintable.querySigns_ne_nil gap named)
    rw [htokens, hlegible.solids_tokens, Sign.length_solids]
    omega
  have hpipeline := finish_of_opening source hopening hfinish (Tape.ofTokens source tokens).size
  rw [← pipelineWith_eq_tier] at hpipeline
  rw [← hsource]
  exact ⟨tokens, stage, _, hscan, hsome, hpipeline, hstage⟩

-- An operation whose tree respects the strengths of its operators and connectives, and whose
-- nesting leaves room for it, is read back from its text.
theorem Query.parse_printed (gap : Nat) (named : Bool) {o : Operation} (hprintable : o.Printable)
    (hgraded : (Node.operation o).GradedWithin) (hcloses : o.closes = true)
    (hsteps : o.steps + 2 ≤ maxNesting) :
    ∃ query, Query.parse (o.query gap named) = .ok query ∧
      query.pipeline.opening.relabel .unplaced = (Stage.search named o).relabel .unplaced ∧
      query.pipeline.later = [] := by
  obtain ⟨tokens, stage, span, hscan, hsome, hafresh, hstage⟩ :=
    hprintable.query_reads gap named hgraded hcloses hsteps
  exact ⟨_, Query.parse_of_tokens hscan hsome (pipeline_of_afresh hafresh), hstage, rfl⟩

-- The tree of `x - 2 * max(a, b) ^ 3 - x`.
def Expr.mixed : Expr :=
  let word (text : String) : Expr := .value (.name ⟨.field, text, ⟨0, 0⟩⟩)
  let number (text : String) : Expr := .value (.number text ⟨0, 0⟩)
  let power : Expr := .binary .pow (.call ⟨"max", ⟨0, 0⟩⟩ [word "a", word "b"] ⟨0, 0⟩) (number "3")
  .binary .sub (.binary .sub (word "x") (.binary .mult (number "2") power)) (word "x")

-- The tree of `(a="s" OR NOT b!=x - 2 * max(a, b) ^ 3 - x) AND b<1`.
def Operation.mixed : Operation :=
  .and
    (.paren
      (.or (.compare ⟨.field, "a", ⟨0, 0⟩⟩ .eq (.value (.string "\"s\"" ⟨0, 0⟩)) ⟨0, 0⟩)
        (.not (.compare ⟨.field, "b", ⟨0, 0⟩⟩ .ne .mixed ⟨0, 0⟩) ⟨0, 0⟩))
      ⟨0, 0⟩)
    (.compare ⟨.field, "b", ⟨0, 0⟩⟩ .lt (.value (.number "1" ⟨0, 0⟩)) ⟨0, 0⟩)

theorem letters_oneWord : ∀ text ∈ ["a", "b", "x"], Scan.OneWord text := by
  have htokens : ∀ text ∈ ["a", "b", "x"],
      Scan.tokens text = .ok [⟨.word, text, 0⟩, ⟨.finish, "", 1⟩] := by decide +kernel
  exact fun text htext => ⟨_, _, htokens text htext, rfl⟩

theorem Operation.mixed_printable : mixed.Printable := by
  have hword := letters_oneWord
  have hfunction : Scan.OneToken .function "max" :=
    ⟨⟨.function, "max", 0⟩, ⟨.finish, "", 3⟩, by decide +kernel, rfl⟩
  have ha : (Expr.value (.name ⟨.field, "a", ⟨0, 0⟩⟩)).Printable := .name rfl (hword _ (by decide))
  have hb : (Expr.value (.name ⟨.field, "b", ⟨0, 0⟩⟩)).Printable := .name rfl (hword _ (by decide))
  have hx : (Expr.value (.name ⟨.field, "x", ⟨0, 0⟩⟩)).Printable := .name rfl (hword _ (by decide))
  have hmixed : Expr.mixed.Printable := by
    refine .binary (.binary hx (.binary (.number (by decide) (List.all_eq_true.1 rfl)) (.binary ?_
      (.number (by decide) (List.all_eq_true.1 rfl))))) hx
    refine .call rfl hfunction fun arg harg => ?_
    rcases List.mem_cons.1 harg with rfl | harg
    · exact ha
    · exact List.mem_singleton.1 harg ▸ hb
  have hstring : (Expr.value (.string "\"s\"" ⟨0, 0⟩)).Printable :=
    .string (show _ = '"' :: (['s'] ++ ['"']) by decide) (by decide) (by decide)
  exact .and
    (.paren (.or (.compare rfl (hword "a" (by decide)) hstring)
      (.not (.compare rfl (hword "b" (by decide)) hmixed))))
    (.compare rfl (hword "b" (by decide)) (.number (by decide) (List.all_eq_true.1 rfl)))

theorem Operation.mixed_graded : (Node.operation mixed).GradedWithin := by
  have hvalue : ∀ v, (Node.expr (.value v)).GradedWithin := fun v =>
    expr_gradedWithin trivial (by simp [Expr.children])
  have hbinary : ∀ {op lhs rhs}, (Node.expr (.binary op lhs rhs)).Graded →
      (Node.expr lhs).GradedWithin → (Node.expr rhs).GradedWithin →
      (Node.expr (.binary op lhs rhs)).GradedWithin := fun hself hl hr =>
    expr_gradedWithin hself (by simp [Expr.children, hl, hr])
  have hmixed : (Node.expr .mixed).GradedWithin := by
    refine hbinary ?_ (hbinary ?_ (hvalue _) (hbinary ?_ (hvalue _) (hbinary ?_ ?_ (hvalue _))))
      (hvalue _)
    · simp [Node.Graded, Expr.operator?, ArithOp.strength, ArithOp.rightStrength]
    · simp [Node.Graded, Expr.operator?, ArithOp.strength, ArithOp.rightStrength]
    · simp [Node.Graded, Expr.operator?, ArithOp.strength, ArithOp.rightStrength]
    · simp [Node.Graded, Expr.operator?]
    · exact expr_gradedWithin trivial (by simp [Expr.children, hvalue])
  have hcompare : ∀ {field op value span}, (Node.expr value).GradedWithin →
      (Node.operation (.compare field op value span)).GradedWithin := fun h =>
    operation_gradedWithin trivial (by simp [Operation.expressions, h])
      (by simp [Operation.children])
  have hnot : ∀ {inner span}, (Node.operation inner).GradedWithin →
      (Node.operation (.not inner span)).GradedWithin := fun h =>
    operation_gradedWithin trivial (by simp [Operation.expressions])
      (by simp [Operation.children, h])
  have hparen : ∀ {inner span}, (Node.operation inner).GradedWithin →
      (Node.operation (.paren inner span)).GradedWithin := fun h =>
    operation_gradedWithin trivial (by simp [Operation.expressions])
      (by simp [Operation.children, h])
  have hor : ∀ {lhs rhs}, (Node.operation (.or lhs rhs)).Graded →
      (Node.operation lhs).GradedWithin → (Node.operation rhs).GradedWithin →
      (Node.operation (.or lhs rhs)).GradedWithin := fun hself hl hr =>
    operation_gradedWithin hself (by simp [Operation.expressions])
      (by simp [Operation.children, hl, hr])
  have hand : ∀ {lhs rhs}, (Node.operation (.and lhs rhs)).Graded →
      (Node.operation lhs).GradedWithin → (Node.operation rhs).GradedWithin →
      (Node.operation (.and lhs rhs)).GradedWithin := fun hself hl hr =>
    operation_gradedWithin hself (by simp [Operation.expressions])
      (by simp [Operation.children, hl, hr])
  refine hand ⟨?_, rfl⟩ (hparen (hor ?_ (hcompare (hvalue _)) (hnot (hcompare hmixed))))
    (hcompare (hvalue _))
  · simp [connective?]
  · simp [Node.Graded, connective?]

theorem Query.parse_printed_mixed :
    Operation.mixed.query 1 true =
        "search (a=\"s\" OR NOT b!=x - 2 * max(a, b) ^ 3 - x) AND b<1" ∧
      Operation.mixed.closes = true ∧ Operation.mixed.steps + 2 ≤ maxNesting ∧
      ∃ query, Query.parse (Operation.mixed.query 1 true) = .ok query ∧
        query.pipeline.opening.relabel .unplaced =
          (Stage.search true .mixed).relabel .unplaced ∧
        query.pipeline.later = [] := by
  have hcloses : Operation.mixed.closes = true := by decide
  have hsteps : Operation.mixed.steps + 2 ≤ maxNesting := by decide +kernel
  exact ⟨by decide +kernel, hcloses, hsteps, Query.parse_printed 1 true Operation.mixed_printable
    Operation.mixed_graded hcloses hsteps⟩

end SearchPipeline
