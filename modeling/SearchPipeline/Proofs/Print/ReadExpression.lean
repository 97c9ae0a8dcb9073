import SearchPipeline.Proofs.Print.Gives
import SearchPipeline.Proofs.Print.Printer
import SearchPipeline.Proofs.Print.Shown

namespace SearchPipeline

-- Puts every span at the start, so that trees that are still different differ in more than places.
def Relabel.unplaced : Relabel := ⟨Name.text, fun _ => ⟨0, 0⟩⟩

@[simp] theorem Relabel.unplaced_place (span : Span) : Relabel.unplaced.place span = ⟨0, 0⟩ := rfl

theorem Name.relabel_unplaced {name : Name} {use : NameUse} {text : String} (huse : name.use = use)
    (htext : name.text = text) (span : Span) :
    Name.relabel .unplaced ⟨use, text, span⟩ = name.relabel .unplaced := by
  simp only [Name.relabel, Relabel.unplaced, huse, htext]

theorem ArithOp.ofKind?_kind (op : ArithOp) : ofKind? op.kind = some op := by
  cases op <;> rfl

theorem ArithOp.strength_le_rightStrength (op : ArithOp) : op.strength ≤ op.rightStrength := by
  cases op <;> decide

theorem ArithOp.rightStrength_le (op : ArithOp) : op.rightStrength ≤ op.strength + 1 := by
  cases op <;> decide

-- An expression that is printed with a blank before it is not attached to what precedes it.
theorem Expr.Printable.apart {e : Expr} (h : e.Printable) {tape : Grammar.Tape} {gap pos : Nat}
    (hshows : tape.Shows (e.signs gap 1) pos) : tape.attachedLeft pos = false := by
  obtain ⟨sign, signs, hsigns, hblanks, -⟩ := h.head gap 1
  rw [hsigns] at hshows
  exact hshows.1.apart (by rw [hblanks]; exact Nat.one_ne_zero)

namespace Grammar

open Rule

variable {tape : Tape} {pos stop least : Nat} {expression : Nat → Rule Expr}

-- What follows is no operator that binds with the given strength, nor a star at the end of a term.
def Tape.Quiet (tape : Tape) (least pos : Nat) : Prop :=
  ∀ op, ArithOp.ofKind? (tape.kind pos) = some op →
    op.strength < least ∧ tape.attachedLeft pos = false

theorem Tape.Quiet.mono {more : Nat} (h : tape.Quiet least pos) (hle : least ≤ more) :
    tape.Quiet more pos := by
  intro op hop
  obtain ⟨hweak, hleft⟩ := h op hop
  exact ⟨by omega, hleft⟩

theorem Tape.quiet_of_kind (hkind : ArithOp.ofKind? (tape.kind pos) = none) (least : Nat) :
    tape.Quiet least pos := by
  intro op hop
  rw [hkind] at hop
  cases hop

-- A printed operator is quiet where it does not bind strongly enough.
theorem Tape.ShowsSign.quiet {op : ArithOp} (h : tape.ShowsSign ⟨1, op.kind, op.text⟩ pos)
    (hweak : op.strength < least) : tape.Quiet least pos := by
  intro other hother
  rw [h.kind, ArithOp.ofKind?_kind, Option.some.injEq] at hother
  subst hother
  exact ⟨hweak, h.apart Nat.one_ne_zero⟩

section Steps

theorem starStep_declines (lhs : Expr) (hweak : productStrength < least)
    (hleft : tape.attachedLeft pos = false) :
    Gives tape pos (starStep expression least lhs) (.done none pos) := by
  refine Gives.look_bind (Gives.look_bind ?_)
  rw [hleft]
  cases tape.attachedRight pos with
  | true =>
      rw [if_pos (by decide)]
      exact .pure none
  | false =>
      rw [if_neg (by decide), if_neg (by simpa using hweak)]
      exact .bind (.pure none) (.pure none)

theorem operatorStep_declines (h : tape.Quiet least pos) (lhs : Expr) :
    Gives tape pos (operatorStep expression least lhs) (.done none pos) := by
  refine Gives.peek_bind rfl ?_
  by_cases hstar : tape.kind pos = .star
  · rw [if_pos hstar]
    obtain ⟨hweak, hleft⟩ := h .mult (by rw [hstar]; rfl)
    exact starStep_declines lhs hweak hleft
  rw [if_neg hstar]
  cases hop : ArithOp.ofKind? (tape.kind pos) with
  | none => exact .pure none
  | some op =>
      dsimp only
      rw [if_pos (h op hop).1]
      exact .pure none

-- A star between blanks is a product.
theorem starStep_takes {lhs found : Expr} (hstrong : least ≤ productStrength)
    (hleft : tape.attachedLeft pos = false) (hright : tape.attachedRight pos = false)
    (hoperand : Gives tape pos (operand expression .mult lhs) (.done found stop)) :
    Gives tape pos (starStep expression least lhs) (.done (some found) stop) := by
  refine Gives.look_bind (Gives.look_bind ?_)
  rw [hleft, hright, if_neg (by decide), if_pos (by simpa using hstrong)]
  exact hoperand.attempt.bind (.pure _)

theorem operatorStep_takes {op : ArithOp} {lhs rhs : Expr} (hot : tape.Orderly)
    (hsign : tape.ShowsSign ⟨1, op.kind, op.text⟩ pos)
    (hright : tape.attachedLeft (pos + 1) = false) (hstrong : least ≤ op.strength)
    (hrhs : Gives tape (pos + 1) (expression op.rightStrength) (.done rhs stop)) :
    Gives tape pos (operatorStep expression least lhs)
      (.done (some (.binary op lhs rhs)) stop) := by
  have hoperand : Gives tape pos (operand expression op lhs) (.done (.binary op lhs rhs) stop) :=
    Gives.advance_bind hot hsign.inside (hrhs.bind (.pure _))
  have hattached : tape.attachedRight pos = false := by
    simp only [Tape.attachedLeft, Nat.add_sub_cancel, Bool.and_eq_false_iff,
      decide_eq_false_iff_not, beq_eq_false_iff_ne] at hright
    simp only [Tape.attachedRight, Bool.and_eq_false_iff, beq_eq_false_iff_ne]
    omega
  have hkind : tape.kind pos = op.kind := hsign.kind
  refine Gives.peek_bind hkind ?_
  by_cases hmult : op = .mult
  · subst hmult
    rw [if_pos (by decide)]
    exact starStep_takes hstrong (hsign.apart Nat.one_ne_zero) hattached hoperand
  · have hstar : op.kind ≠ .star := by
      cases op <;> first | exact absurd rfl hmult | decide
    rw [if_neg hstar, ArithOp.ofKind?_kind]
    dsimp only
    rw [if_neg (by omega)]
    exact hoperand.attempt

end Steps

section Primary

variable {blanks mid : Nat} {text : String} {outcome : Outcome Expr}

-- The kinds with which a value begins.
def opensValue (kind : Kind) : Bool :=
  kind.isName || kind ∈ [.time, .string, .plus, .minus, .number]

theorem value_stuck (h : opensValue (tape.kind pos) = false) :
    Gives tape pos value (.stuck pos) := by
  simp only [opensValue, Bool.or_eq_false_iff, decide_eq_false_iff_not, List.mem_cons, not_or,
    List.not_mem_nil, not_false_eq_true, and_true] at h
  obtain ⟨hname, htime, hstring, hplus, hminus, hnumber⟩ := h
  have hnow : tape.kind pos ≠ .timeOrFunction := by
    intro hnow
    rw [hnow] at hname
    cases hname
  refine Gives.peek_bind rfl ?_
  rw [if_neg (by simp [hnow, htime]), if_neg hstring, if_neg (by simp [hname])]
  refine Gives.peekAt_bind rfl ?_
  rw [if_neg (by simp [hplus, hminus]), if_neg hnumber]
  exact .miss _

theorem name_word (hot : tape.Orderly) (h : tape.ShowsSign ⟨blanks, .word, text⟩ pos) :
    Gives tape pos name (.done ⟨.field, text, .single (tape.index pos)⟩ (pos + 1)) := by
  refine Gives.peek_bind h.kind (Gives.advance_bind hot h.inside ?_)
  rw [h.text]
  exact .pure _

theorem value_word (hot : tape.Orderly) (h : tape.ShowsSign ⟨blanks, .word, text⟩ pos) :
    Gives tape pos value
      (.done (.name ⟨.field, text, .single (tape.index pos)⟩) (pos + 1)) := by
  have hkind : tape.kind pos = .word := h.kind
  refine Gives.peek_bind hkind ?_
  rw [if_neg (by decide), if_neg (by decide), if_pos (by decide)]
  exact (name_word hot h).bind (.pure _)

theorem literal_reads {kind : Kind} (make : String → Span → Value) (hot : tape.Orderly)
    (h : tape.ShowsSign ⟨blanks, kind, text⟩ pos) :
    Gives tape pos (literal make) (.done (make text (.single (tape.index pos))) (pos + 1)) := by
  refine Gives.advance_bind hot h.inside ?_
  rw [h.text]
  exact .pure _

theorem value_number (hot : tape.Orderly) (h : tape.ShowsSign ⟨blanks, .number, text⟩ pos) :
    Gives tape pos value (.done (.number text (.single (tape.index pos))) (pos + 1)) := by
  have hkind : tape.kind pos = .number := h.kind
  refine Gives.peek_bind hkind ?_
  rw [if_neg (by decide), if_neg (by decide), if_neg (by decide)]
  refine Gives.peekAt_bind rfl ?_
  rw [if_neg (by simp), if_pos rfl]
  exact literal_reads .number hot h

theorem value_string (hot : tape.Orderly) (h : tape.ShowsSign ⟨blanks, .string, text⟩ pos) :
    Gives tape pos value (.done (.string text (.single (tape.index pos))) (pos + 1)) := by
  have hkind : tape.kind pos = .string := h.kind
  refine Gives.peek_bind hkind ?_
  rw [if_neg (by decide), if_pos rfl]
  exact literal_reads .string hot h

theorem callAhead_refuses (h : (tape.kind pos).isFunction = false) :
    Gives tape pos (callAhead expression) (.stuck pos) := by
  refine Gives.peek_bind rfl (Gives.peekAt_bind rfl ?_)
  rw [if_neg (by simp [h])]
  exact .refuse

theorem parenthesised_refuses (h : tape.kind pos ≠ .openParen) :
    Gives tape pos (parenthesised expression) (.stuck pos) := by
  refine Gives.peek_bind rfl ?_
  rw [if_neg h]
  exact .refuse

theorem wildcards_refuses (h : tape.kind pos ≠ .star) :
    Gives tape pos (wildcards expression) (.stuck pos) := by
  refine Gives.peek_bind rfl ?_
  rw [if_neg h]
  exact .refuse

theorem path_refuses (h : tape.kind pos ≠ .slash) : Gives tape pos path (.stuck pos) := by
  have hsegment : Gives tape pos (segment []) (.done none pos) := by
    refine Gives.peek_bind rfl (Gives.peekAt_bind rfl ?_)
    rw [if_neg (by simp [h])]
    exact .pure none
  refine Gives.position_bind ?_
  have hnames : Gives tape pos (repeatStep segment []) (.done [] pos) :=
    Gives.look_bind (hsegment.iterate_end _)
  exact hnames.bind .refuse

-- Where nothing else can stand, an operand is a value or nothing.
theorem primary_of_value (hfunction : (tape.kind pos).isFunction = false)
    (hparen : ∃ stop, Gives tape pos (parenthesised expression) (.stuck stop))
    (hstar : tape.kind pos ≠ .star) (hslash : tape.kind pos ≠ .slash)
    (hvalue : Gives tape pos (do return Expr.value (← value)) outcome) :
    Gives tape pos (primary expression) outcome := by
  refine Gives.firstOf_pass [callAhead expression, parenthesised expression,
    wildcards expression, path] ?_ hvalue
  intro rule hrule
  simp only [List.mem_cons, List.not_mem_nil, or_false] at hrule
  rcases hrule with rfl | rfl | rfl | rfl
  · exact ⟨pos, callAhead_refuses hfunction⟩
  · exact hparen
  · exact ⟨pos, wildcards_refuses hstar⟩
  · exact ⟨pos, path_refuses hslash⟩

theorem primary_leaf {found : Value} (hkind : tape.kind pos ∈ [Kind.word, .number, .string])
    (h : Gives tape pos value (.done found stop)) :
    Gives tape pos (primary expression) (.done (.value found) stop) := by
  have hkinds : ∀ kind ∈ [Kind.word, .number, .string], kind.isFunction = false ∧
      kind ≠ .openParen ∧ kind ≠ .star ∧ kind ≠ .slash := by decide
  obtain ⟨hfunction, hopen, hstar, hslash⟩ := hkinds _ hkind
  exact primary_of_value hfunction ⟨pos, parenthesised_refuses hopen⟩ hstar hslash
    (h.bind (.pure _))

theorem primary_paren {inner : Expr} (hot : tape.Orderly)
    (hopen : tape.ShowsSign ⟨blanks, .openParen, "("⟩ pos)
    (hinner : Gives tape (pos + 1) (expression 0) (.done inner stop))
    (hclose : tape.ShowsSign ⟨0, .closeParen, ")"⟩ stop) :
    Gives tape pos (primary expression)
      (.done (.paren inner (tape.span pos (stop + 1))) (stop + 1)) := by
  have hkind : tape.kind pos = .openParen := hopen.kind
  have hparen : Gives tape pos (parenthesised expression)
      (.done (.paren inner (tape.span pos (stop + 1))) (stop + 1)) := by
    refine Gives.peek_bind hkind ?_
    rw [if_pos rfl]
    refine Gives.position_bind (Gives.advance_bind hot hopen.inside (hinner.bind ?_))
    exact Gives.expect_bind hot hclose.kind (by decide) (Gives.spanFrom_bind (.pure _))
  refine Gives.firstOf_pass [callAhead expression] ?_ hparen.firstOf_take
  intro rule hrule
  rw [List.mem_singleton] at hrule
  subst hrule
  exact ⟨pos, callAhead_refuses (by rw [hkind]; rfl)⟩

theorem primary_call {args : List Expr} {kind : Kind} (hot : tape.Orderly)
    (hfunction : kind.isFunction = true) (hname : tape.ShowsSign ⟨blanks, kind, text⟩ pos)
    (hopen : tape.ShowsSign ⟨0, .openParen, "("⟩ (pos + 1))
    (hargs : Gives tape (pos + 1 + 1) (expressionList expression) (.done args stop))
    (hclose : tape.ShowsSign ⟨0, .closeParen, ")"⟩ stop) :
    Gives tape pos (primary expression) (.done (.call ⟨text, .single (tape.index pos)⟩ args
      (tape.span pos (stop + 1))) (stop + 1)) := by
  refine Gives.firstOf_take (Gives.peek_bind hname.kind (Gives.peekAt_bind hopen.kind ?_))
  rw [if_pos ⟨hfunction, rfl⟩]
  refine Gives.position_bind (Gives.advance_bind hot hname.inside ?_)
  refine Gives.expect_bind hot hopen.kind (by decide) (hargs.bind ?_)
  refine Gives.expect_bind hot hclose.kind (by decide) (Gives.spanFrom_bind ?_)
  rw [hname.text]
  exact .pure _

end Primary

-- Wherever an expression is printed and no operator of a strength follows, a rule reads it.
def ReadsExpr (tape : Tape) (gap least : Nat) (rule : Rule Expr) (e : Expr) : Prop :=
  ∀ blanks pos, tape.Shows (e.signs gap blanks) pos →
    tape.Quiet least (pos + (e.signs gap blanks).length) →
    ∃ read, read.relabel .unplaced = e.relabel .unplaced ∧
      Gives tape pos rule (.done read (pos + (e.signs gap blanks).length))

section Arguments

variable {gap : Nat} {args : List Expr}

-- A comma and the next argument of a call.
def argumentStep (expression : Nat → Rule Expr) (found : List Expr) :
    Rule (Option (List Expr)) := do
  if ← eat .comma then return some ((← expression 0) :: found) else return none

theorem arguments_quiet (hshows : tape.Shows (argSigns gap true args) pos)
    (hclose : tape.kind (pos + (argSigns gap true args).length) = .closeParen) :
    tape.Quiet 0 pos := by
  cases args with
  | nil => exact Tape.quiet_of_kind (by rw [show tape.kind pos = _ from hclose]; rfl) 0
  | cons arg args =>
      rw [argSigns, if_pos rfl] at hshows
      exact Tape.quiet_of_kind (by rw [hshows.1.kind]; rfl) 0

theorem arguments_read (hot : tape.Orderly)
    (hargs : ∀ arg ∈ args, ReadsExpr tape gap 0 (expression 0) arg)
    (hshows : tape.Shows (argSigns gap true args) pos)
    (hclose : tape.kind (pos + (argSigns gap true args).length) = .closeParen)
    (found : List Expr) {fuel : Nat} (hfuel : args.length ≤ fuel) :
    ∃ reads : List Expr, reads.map (·.relabel .unplaced) = args.map (·.relabel .unplaced) ∧
      Gives tape pos (iterate (argumentStep expression) fuel found)
        (.done (reads.reverse ++ found) (pos + (argSigns gap true args).length)) := by
  induction args generalizing pos found fuel with
  | nil =>
      have hkind : tape.kind pos ≠ .comma := by
        rw [show tape.kind pos = .closeParen from hclose]
        decide
      exact ⟨[], rfl, Gives.iterate_end fuel (Gives.eat_other hkind (.pure none))⟩
  | cons arg args ih =>
      obtain ⟨fuel, rfl⟩ : ∃ less, fuel = less + 1 := ⟨fuel - 1, by simp at hfuel; omega⟩
      rw [argSigns, if_pos rfl] at hshows hclose ⊢
      obtain ⟨⟨hcomma, hfirst⟩, hrest⟩ := Tape.shows_append_iff.1 hshows
      obtain ⟨mid, hmid⟩ : ∃ mid, mid = pos + 1 + (arg.signs gap gap).length := ⟨_, rfl⟩
      have hmid' : pos + (Sign.mk 0 .comma "," :: arg.signs gap gap).length = mid := by
        rw [hmid, List.length_cons]
        omega
      rw [List.length_append, ← Nat.add_assoc, hmid'] at hclose ⊢
      rw [hmid'] at hrest
      have hquiet := arguments_quiet hrest hclose
      rw [hmid] at hquiet
      obtain ⟨read, hread, hgives⟩ := hargs arg List.mem_cons_self gap (pos + 1) hfirst hquiet
      rw [← hmid] at hgives
      obtain ⟨reads, hreads, hrests⟩ := ih (fun other hother =>
        hargs other (List.mem_cons_of_mem _ hother)) hrest hclose (read :: found)
        (Nat.le_of_succ_le_succ hfuel)
      refine ⟨read :: reads, by rw [List.map_cons, List.map_cons, hread, hreads], ?_⟩
      rw [List.reverse_cons, List.append_assoc, List.singleton_append]
      exact Gives.iterate_step
        (Gives.eat_bind hot hcomma.kind (by decide) (hgives.bind (.pure _))) hrests

theorem length_le_argSigns (gap : Nat) (args : List Expr) :
    args.length ≤ (argSigns gap true args).length := by
  induction args with
  | nil => exact Nat.le_refl 0
  | cons arg args ih =>
      simp only [argSigns, if_true, List.length_append, List.length_cons]
      omega

theorem expressionList_reads (hot : tape.Orderly) (hprintable : ∀ arg ∈ args, arg.Printable)
    (hargs : ∀ arg ∈ args, ReadsExpr tape gap 0 (expression 0) arg)
    (hshows : tape.Shows (argSigns gap false args) pos)
    (hclose : tape.kind (pos + (argSigns gap false args).length) = .closeParen)
    (hsize : pos + (argSigns gap false args).length < tape.size) :
    ∃ reads : List Expr, reads.map (·.relabel .unplaced) = args.map (·.relabel .unplaced) ∧
      Gives tape pos (expressionList expression)
        (.done reads (pos + (argSigns gap false args).length)) := by
  cases args with
  | nil =>
      refine ⟨[], rfl, Gives.peek_bind (show tape.kind pos = .closeParen from hclose) ?_⟩
      rw [if_pos rfl]
      exact .pure []
  | cons arg args =>
      rw [argSigns, if_neg Bool.false_ne_true] at hshows hclose hsize ⊢
      obtain ⟨hfirst, hrest⟩ := Tape.shows_append_iff.1 hshows
      have hopens : tape.kind pos ≠ .closeParen := by
        obtain ⟨sign, signs, hsigns, -, hkind⟩ :=
          (hprintable arg List.mem_cons_self).head gap 0
        rw [hsigns] at hfirst
        rw [hfirst.1.kind]
        intro hclose
        rw [hclose] at hkind
        cases hkind
      rw [List.length_append, ← Nat.add_assoc] at hclose hsize ⊢
      obtain ⟨read, hread, hgives⟩ :=
        hargs arg List.mem_cons_self 0 pos hfirst (arguments_quiet hrest hclose)
      have hlength := length_le_argSigns gap args
      obtain ⟨reads, hreads, hrests⟩ := arguments_read hot
        (fun other hother => hargs other (List.mem_cons_of_mem _ hother)) hrest hclose []
        (show args.length ≤ tape.size - (pos + (arg.signs gap 0).length) by omega)
      refine ⟨read :: reads, by rw [List.map_cons, List.map_cons, hread, hreads], ?_⟩
      refine Gives.peek_bind rfl ?_
      rw [if_neg hopens]
      refine hgives.bind (Gives.bind (Gives.look_bind hrests) ?_)
      rw [List.append_nil, List.reverse_reverse]
      exact .pure _

end Arguments

section Climbing

variable {gap room : Nat} {e : Expr}

-- Wherever an expression is printed, operators lead to it that bind with a given strength at least,
-- if those of its root do and what follows does not belong to its last operand.
def ClimbsExpr (tape : Tape) (gap room : Nat) (e : Expr) : Prop :=
  ∀ least blanks pos, tape.Shows (e.signs gap blanks) pos →
    (∀ op, e.operator? = some op → least ≤ op.strength ∧
      tape.Quiet op.rightStrength (pos + (e.signs gap blanks).length)) →
    ∃ read, read.relabel .unplaced = e.relabel .unplaced ∧
      Climbs tape (primary (tier false room).expression)
        (operatorStep (tier false room).expression least) pos
        (pos + (e.signs gap blanks).length) read

theorem ClimbsExpr.reads (h : ClimbsExpr tape gap room e) (hot : tape.Orderly)
    (hprintable : e.Printable)
    (hroot : ∀ op, e.operator? = some op → least ≤ op.strength) :
    ReadsExpr tape gap least ((tier false (room + 1)).expression least) e := by
  intro blanks pos hshows hquiet
  obtain ⟨read, hread, hclimbs⟩ := h least blanks pos hshows fun op hop =>
    ⟨hroot op hop, hquiet.mono (Nat.le_trans (hroot op hop) op.strength_le_rightStrength)⟩
  have hsize := hshows.lt_size hot (hprintable.signs_ne_nil gap blanks)
  exact ⟨read, hread,
    (hclimbs.gives (Nat.le_of_lt hsize) (operatorStep_declines hquiet read)).whileShallow⟩

theorem ClimbsExpr.leaf {v : Value} (h : ∀ blanks pos,
    tape.Shows ((Expr.value v).signs gap blanks) pos →
      ∃ read : Value, read.relabel .unplaced = v.relabel .unplaced ∧
        tape.kind pos ∈ [Kind.word, .number, .string] ∧ Gives tape pos value
          (.done read (pos + ((Expr.value v).signs gap blanks).length))) :
    ClimbsExpr tape gap room (.value v) := by
  intro least blanks pos hshows _
  obtain ⟨read, hread, hkind, hgives⟩ := h blanks pos hshows
  refine ⟨.value read, by simp only [Expr.relabel, hread], ?_⟩
  exact (primary_leaf hkind hgives).climbs

theorem ClimbsExpr.call {function : FunctionName} {args : List Expr} {kind : Kind} {span : Span}
    (hot : tape.Orderly) (hfunction : kind.isFunction = true)
    (hclass : Keyword.classify function.text = kind) (hprintable : ∀ arg ∈ args, arg.Printable)
    (hargs : ∀ arg ∈ args, ReadsExpr tape gap 0 ((tier false room).expression 0) arg) :
    ClimbsExpr tape gap room (.call function args span) := by
  intro least blanks pos hshows _
  have hsize := hshows.lt_size hot (by rw [Expr.signs]; exact List.cons_ne_nil _ _)
  have hstop : pos + ((Expr.call function args span).signs gap blanks).length =
      pos + 1 + 1 + (argSigns gap false args).length + 1 := by
    simp only [Expr.signs, List.length_cons, List.length_append, List.length_nil]
    omega
  rw [hstop] at hsize ⊢
  rw [Expr.signs, hclass] at hshows
  obtain ⟨hname, hopen, hinside⟩ := hshows
  obtain ⟨hshown, hclose, -⟩ := Tape.shows_append_iff.1 hinside
  obtain ⟨reads, hsame, hlist⟩ :=
    expressionList_reads hot hprintable hargs hshown hclose.kind (Nat.lt_of_succ_lt hsize)
  refine ⟨_, ?_, (primary_call hot hfunction hname hopen hlist hclose).climbs⟩
  simp only [Expr.relabel, FunctionName.relabel, relabelExprs_eq, hsame, Relabel.unplaced_place]

theorem ClimbsExpr.paren {span : Span} (hot : tape.Orderly)
    (hinner : ReadsExpr tape gap 0 ((tier false room).expression 0) e) :
    ClimbsExpr tape gap room (.paren e span) := by
  intro least blanks pos hshows _
  have hstop : pos + ((Expr.paren e span).signs gap blanks).length =
      pos + 1 + (e.signs gap 0).length + 1 := by
    simp only [Expr.signs, List.length_cons, List.length_append, List.length_nil]
    omega
  rw [hstop]
  rw [Expr.signs] at hshows
  obtain ⟨hopen, hinside⟩ := hshows
  obtain ⟨hshown, hclose, -⟩ := Tape.shows_append_iff.1 hinside
  obtain ⟨read, hsame, hgives⟩ := hinner 0 (pos + 1) hshown
    (Tape.quiet_of_kind (by rw [hclose.kind]; rfl) 0)
  refine ⟨_, ?_, (primary_paren hot hopen hgives hclose).climbs⟩
  simp only [Expr.relabel, hsame, Relabel.unplaced_place]

-- The operator in the middle ends the left operand, since no operator in there binds more weakly.
theorem ClimbsExpr.binary {op : ArithOp} {lhs rhs : Expr} (hot : tape.Orderly)
    (hgraded : (Node.expr (.binary op lhs rhs)).Graded) (hrhs : rhs.Printable)
    (hl : ClimbsExpr tape gap room lhs)
    (hr : ReadsExpr tape gap op.rightStrength ((tier false room).expression op.rightStrength)
      rhs) : ClimbsExpr tape gap room (.binary op lhs rhs) := by
  intro least blanks pos hshows hroot
  obtain ⟨mid, hmid⟩ : ∃ mid, mid = pos + (lhs.signs gap blanks).length := ⟨_, rfl⟩
  have hstop : pos + ((Expr.binary op lhs rhs).signs gap blanks).length =
      mid + 1 + (rhs.signs gap 1).length := by
    simp only [Expr.signs, List.length_cons, List.length_append]
    omega
  rw [hstop] at hroot ⊢
  have hlt : mid < mid + 1 + (rhs.signs gap 1).length := by omega
  obtain ⟨hstrong, hquiet⟩ := hroot op rfl
  rw [Expr.signs] at hshows
  obtain ⟨hshownl, hsign, hshownr⟩ := Tape.shows_append_iff.1 hshows
  rw [← hmid] at hsign hshownr
  obtain ⟨readl, hsamel, hclimbs⟩ := hl least blanks pos hshownl fun inner hop => by
    have hweak := hgraded.1 inner hop
    have := inner.rightStrength_le
    rw [← hmid]
    exact ⟨by omega, hsign.quiet hweak⟩
  obtain ⟨readr, hsamer, hgives⟩ := hr 1 (mid + 1) hshownr hquiet
  rw [← hmid] at hclimbs
  refine ⟨.binary op readl readr, by simp only [Expr.relabel, hsamel, hsamer], ?_⟩
  exact hclimbs.more hlt (operatorStep_takes hot hsign (hrhs.apart hshownr) hstrong hgives)

end Climbing

end Grammar

open Grammar Rule

-- The induction goes along the tree. Each level of nesting has a level of rules to read it.
theorem Expr.Printable.climbs {e : Expr} (h : e.Printable) {tape : Tape} {gap room : Nat}
    (hot : tape.Orderly) (hgraded : (Node.expr e).GradedWithin) (hsteps : e.steps ≤ room) :
    ClimbsExpr tape gap room e := by
  induction h generalizing room with
  | name huse _ =>
      refine .leaf fun blanks pos hshows => ?_
      rw [signs] at hshows ⊢
      refine ⟨_, ?_, by simp [hshows.1.kind], value_word hot hshows.1⟩
      simp only [Value.relabel, Name.relabel_unplaced huse rfl]
  | number _ _ =>
      refine .leaf fun blanks pos hshows => ?_
      rw [signs] at hshows ⊢
      refine ⟨_, ?_, by simp [hshows.1.kind], value_number hot hshows.1⟩
      rfl
  | string _ _ _ =>
      refine .leaf fun blanks pos hshows => ?_
      rw [signs] at hshows ⊢
      refine ⟨_, ?_, by simp [hshows.1.kind], value_string hot hshows.1⟩
      rfl
  | @call function args kind span hfunction htoken hargs ih =>
      rw [Expr.steps] at hsteps
      refine .call hot hfunction
        (classify_of_oneToken htoken (mem_wordKinds_of_isFunction hfunction)) hargs ?_
      intro arg harg
      have hdeep := steps_of_arg harg
      obtain ⟨room, rfl⟩ : ∃ less, room = less + 1 := ⟨room - 1, by omega⟩
      have hinner := hgraded.child
        (expr_mem_children (show arg ∈ (Expr.call function args span).children from harg))
      exact (ih arg harg hinner (by omega)).reads hot (hargs arg harg) fun _ _ => Nat.zero_le _
  | @paren inner span hprintable ih =>
      rw [Expr.steps] at hsteps
      obtain ⟨room, rfl⟩ : ∃ less, room = less + 1 := ⟨room - 1, by omega⟩
      have hinner := hgraded.child
        (expr_mem_children (show inner ∈ (Expr.paren inner span).children from
          List.mem_singleton_self inner))
      exact .paren hot ((ih hinner (Nat.le_of_succ_le_succ hsteps)).reads hot hprintable
        fun _ _ => Nat.zero_le _)
  | @binary op lhs rhs _ hrhs ihl ihr =>
      rw [Expr.steps] at hsteps
      obtain ⟨room, rfl⟩ : ∃ less, room = less + 1 := ⟨room - 1, by omega⟩
      have hself := hgraded _ .self
      have hinner := fun child hchild => hgraded.child
        (expr_mem_children (show child ∈ (Expr.binary op lhs rhs).children from hchild))
      have hl : ClimbsExpr tape gap (room + 1) lhs :=
        ihl (hinner lhs List.mem_cons_self) (by omega)
      have hr : ClimbsExpr tape gap room rhs :=
        ihr (hinner rhs (List.mem_cons_of_mem _ List.mem_cons_self)) (by omega)
      exact .binary hot hself hrhs hl (hr.reads hot hrhs hself.2)

-- An expression is read wherever it is printed, if the levels of rules are enough for its nesting.
theorem Expr.Printable.reads {e : Expr} (h : e.Printable) {tape : Tape} {gap room : Nat}
    (hot : tape.Orderly) (hgraded : (Node.expr e).GradedWithin) (hsteps : e.steps + 1 ≤ room) :
    ReadsExpr tape gap 0 ((tier false room).expression 0) e := by
  obtain ⟨room, rfl⟩ : ∃ less, room = less + 1 := ⟨room - 1, by omega⟩
  exact (h.climbs hot hgraded (Nat.le_of_succ_le_succ hsteps)).reads hot h fun _ _ => Nat.zero_le _

end SearchPipeline
