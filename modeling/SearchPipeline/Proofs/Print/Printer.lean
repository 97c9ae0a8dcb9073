import SearchPipeline.Proofs.Grammar.Precedence
import SearchPipeline.Proofs.Print.Sign

namespace SearchPipeline

open Scan (OneWord OneToken Lexes Legible setsApart)

mutual

-- The signs of an expression, the first one with the given blanks before it. Behind the commas of a
-- call stand `gap` blanks. Forms that are not printed have no signs.
def Expr.signs (gap blanks : Nat) : Expr → List Sign
  | .value (.name n) => [⟨blanks, .word, n.text⟩]
  | .value (.number text _) => [⟨blanks, .number, text⟩]
  | .value (.string text _) => [⟨blanks, .string, text⟩]
  | .call function args _ =>
      ⟨blanks, Keyword.classify function.text, function.text⟩ :: ⟨0, .openParen, "("⟩ ::
        (argSigns gap false args ++ [⟨0, .closeParen, ")"⟩])
  | .paren inner _ => ⟨blanks, .openParen, "("⟩ :: (inner.signs gap 0 ++ [⟨0, .closeParen, ")"⟩])
  | .binary op lhs rhs => lhs.signs gap blanks ++ ⟨1, op.kind, op.text⟩ :: rhs.signs gap 1
  | _ => []

-- Expressions one behind the other, with a comma before each but the first.
def argSigns (gap : Nat) (behind : Bool) : List Expr → List Sign
  | [] => []
  | first :: rest =>
      (if behind then ⟨0, .comma, ","⟩ :: first.signs gap gap else first.signs gap 0) ++
        argSigns gap true rest

end

def Operation.signs (gap blanks : Nat) : Operation → List Sign
  | .compare field op value _ =>
      ⟨blanks, .word, field.text⟩ :: ⟨0, op.kind, op.text⟩ :: value.signs gap 0
  | .not inner _ => ⟨blanks, .neg, "NOT"⟩ :: inner.signs gap 1
  | .paren inner _ => ⟨blanks, .openParen, "("⟩ :: (inner.signs gap 0 ++ [⟨0, .closeParen, ")"⟩])
  | .and lhs rhs => lhs.signs gap blanks ++ ⟨1, .conj, "AND"⟩ :: rhs.signs gap 1
  | .or lhs rhs => lhs.signs gap blanks ++ ⟨1, .disj, "OR"⟩ :: rhs.signs gap 1
  | _ => []

def Operation.print (gap : Nat) (operation : Operation) : String :=
  String.ofList (Sign.spell (operation.signs gap 0))

-- The expressions that are printed: names that are ordinary words, numbers of digits alone, strings
-- in double quotes that need no escapes, calls of functions, parentheses and operators.
inductive Expr.Printable : Expr → Prop where
  | name {n : Name} : n.use = .field → OneWord n.text → Printable (.value (.name n))
  | number {text : String} {span : Span} : text ≠ "" →
      (∀ d ∈ text.toList, Scan.isDigit d = true) → Printable (.value (.number text span))
  | string {text : String} {body : List Char} {span : Span} :
      text.toList = '"' :: (body ++ ['"']) → '"' ∉ body → '\\' ∉ body →
      Printable (.value (.string text span))
  | call {function : FunctionName} {args : List Expr} {kind : Kind} {span : Span} :
      kind.isFunction = true → OneToken kind function.text → (∀ arg ∈ args, Printable arg) →
      Printable (.call function args span)
  | paren {inner : Expr} {span : Span} : Printable inner → Printable (.paren inner span)
  | binary {op : ArithOp} {lhs rhs : Expr} : Printable lhs → Printable rhs →
      Printable (.binary op lhs rhs)

inductive Operation.Printable : Operation → Prop where
  | compare {field : Name} {op : CompareOp} {value : Expr} {span : Span} : field.use = .field →
      OneWord field.text → value.Printable → Printable (.compare field op value span)
  | not {inner : Operation} {span : Span} : Printable inner → Printable (.not inner span)
  | paren {inner : Operation} {span : Span} : Printable inner → Printable (.paren inner span)
  | and {lhs rhs : Operation} : Printable lhs → Printable rhs → Printable (.and lhs rhs)
  | or {lhs rhs : Operation} : Printable lhs → Printable rhs → Printable (.or lhs rhs)

-- No operation on the left of a connective ends in a NOT.
def Operation.closes : Operation → Bool
  | .not inner _ | .paren inner _ => inner.closes
  | .and lhs rhs | .or lhs rhs => !lhs.endsInNot && lhs.closes && rhs.closes
  | _ => true

mutual

-- The most levels that lie on a path into an expression: parentheses, arguments and right operands.
def Expr.steps : Expr → Nat
  | .value _ | .wildcard _ | .path _ _ => 0
  | .call _ args _ => argSteps args
  | .paren inner _ | .contains inner _ | .endsWith inner _ | .startsWith inner _ => inner.steps + 1
  | .binary _ lhs rhs => max lhs.steps (rhs.steps + 1)

def argSteps : List Expr → Nat
  | [] => 0
  | first :: rest => max (first.steps + 1) (argSteps rest)

end

-- The most levels that lie on a path into an operation: those of its expressions, and NOT,
-- parentheses and right operands on the way to them.
def Operation.steps : Operation → Nat
  | .compare _ _ value _ => value.steps
  | .not inner _ | .paren inner _ => inner.steps + 1
  | .and lhs rhs | .or lhs rhs => max lhs.steps (rhs.steps + 1)
  | _ => 0

theorem steps_of_arg {args : List Expr} {arg : Expr} (h : arg ∈ args) :
    arg.steps + 1 ≤ argSteps args := by
  induction args with
  | nil => cases h
  | cons first rest ih =>
      simp only [argSteps]
      rcases List.mem_cons.1 h with rfl | hrest
      · omega
      · have := ih hrest
        omega

theorem classify_of_oneToken {kind : Kind} {text : String} (h : OneToken kind text)
    (hword : kind ∈ Scan.wordKinds) : Keyword.classify text = kind := by
  obtain ⟨c, more, htext, hlexeme⟩ := h.lexeme
  obtain ⟨-, hcount, hkind⟩ := (Scan.lexed_of_lexeme hlexeme).word_of_mem hword
  rw [← hcount, List.take_length, ← htext, String.ofList_toList] at hkind
  exact hkind.symm

theorem mem_wordKinds_of_isFunction {kind : Kind} (h : kind.isFunction = true) :
    kind ∈ Scan.wordKinds := by
  cases kind <;> first | decide | cases h

section Heads

-- The kinds of the first sign of a tree that is printed.
def Kind.headsPrint (kind : Kind) : Bool :=
  kind.isFunction || kind ∈ [.word, .number, .string, .openParen, .neg]

variable (gap blanks : Nat)

theorem Expr.Printable.head {e : Expr} (h : e.Printable) : ∃ sign signs,
    e.signs gap blanks = sign :: signs ∧ sign.blanks = blanks ∧ sign.kind.headsPrint = true := by
  induction h with
  | name _ _ => exact ⟨_, _, by rw [signs], rfl, rfl⟩
  | number _ _ => exact ⟨_, _, by rw [signs], rfl, rfl⟩
  | string _ _ _ => exact ⟨_, _, by rw [signs], rfl, rfl⟩
  | call hfunction htoken _ _ =>
      refine ⟨_, _, by rw [signs], rfl, ?_⟩
      rw [classify_of_oneToken htoken (mem_wordKinds_of_isFunction hfunction)]
      simp [Kind.headsPrint, hfunction]
  | paren _ _ => exact ⟨_, _, by rw [signs], rfl, rfl⟩
  | binary _ _ ih _ =>
      obtain ⟨sign, signs, hsigns, hblanks, hkind⟩ := ih
      exact ⟨sign, _, by rw [Expr.signs, hsigns, List.cons_append], hblanks, hkind⟩

theorem Operation.Printable.head {o : Operation} (h : o.Printable) : ∃ sign signs,
    o.signs gap blanks = sign :: signs ∧ sign.blanks = blanks ∧
      sign.kind ∈ [Kind.word, .neg, .openParen] := by
  induction h with
  | compare _ _ _ => exact ⟨_, _, by rw [signs], rfl, by simp⟩
  | not _ _ => exact ⟨_, _, by rw [signs], rfl, by simp⟩
  | paren _ _ => exact ⟨_, _, by rw [signs], rfl, by simp⟩
  | and _ _ ih _ | or _ _ ih _ =>
      obtain ⟨sign, signs, hsigns, hblanks, hkind⟩ := ih
      exact ⟨sign, _, by rw [Operation.signs, hsigns, List.cons_append], hblanks, hkind⟩

theorem Expr.Printable.signs_ne_nil {e : Expr} (h : e.Printable) : e.signs gap blanks ≠ [] := by
  obtain ⟨sign, signs, hsigns, -, -⟩ := h.head gap blanks
  rw [hsigns]
  exact List.cons_ne_nil sign signs

theorem Operation.Printable.signs_ne_nil {o : Operation} (h : o.Printable) :
    o.signs gap blanks ≠ [] := by
  obtain ⟨sign, signs, hsigns, -, -⟩ := h.head gap blanks
  rw [hsigns]
  exact List.cons_ne_nil sign signs

end Heads

section Legible

variable {blanks : Nat} {rest : List Char}

-- A sign that has a blank before it begins with that blank.
theorem spell_blank {sign : Sign} (h : sign.blanks = blanks + 1)
    (signs : List Sign) : ∃ more, Sign.spell (sign :: signs) = ' ' :: more := by
  rw [Scan.spell_cons, Sign.gap, h, List.replicate_succ]
  exact ⟨_, rfl⟩

-- The text of a tree that is printed does not begin with an equality sign.
theorem head_not_eq {sign : Sign} {signs : List Sign} (h : Legible (sign :: signs) rest)
    (hblanks : sign.blanks = 0) (hkind : sign.kind.headsPrint = true) :
    Text.headIs (· == '=') (Sign.spell (sign :: signs) ++ rest) = false := by
  obtain ⟨⟨-, c, more, htext, -, hlexeme⟩, -⟩ := h
  rw [Scan.spell_cons, Sign.gap, hblanks, List.replicate_zero, List.nil_append, htext]
  simp only [List.cons_append, Text.headIs, beq_eq_false_iff_ne]
  rintro rfl
  have hverdict : Except.ok sign.kind = Except.ok Kind.eq :=
    (congrArg Scan.Lexeme.verdict (hlexeme none)).symm
  rw [Except.ok.inj hverdict] at hkind
  cases hkind

theorem legible_args (gap : Nat) (behind : Bool) {args : List Expr}
    (h : ∀ arg ∈ args, ∀ blanks rest, setsApart rest = true → Legible (arg.signs gap blanks) rest)
    (hrest : setsApart rest = true) : Legible (argSigns gap behind args) rest := by
  induction args generalizing behind with
  | nil => trivial
  | cons first others ih =>
      have hothers := ih true fun arg harg => h arg (List.mem_cons_of_mem _ harg)
      -- what follows an argument is a comma, or what follows all of them
      have hapart : setsApart (Sign.spell (argSigns gap true others) ++ rest) = true := by
        cases others with
        | nil => exact hrest
        | cons second others => rfl
      have hfirst := fun blanks => h first List.mem_cons_self blanks _ hapart
      rw [argSigns]
      refine Scan.legible_append_iff.2 ⟨?_, hothers⟩
      cases behind with
      | false => exact hfirst 0
      | true => exact ⟨Scan.lexes_comma, hfirst gap⟩

theorem Expr.Printable.legible {e : Expr} (h : e.Printable) (gap blanks : Nat) (rest : List Char)
    (hrest : setsApart rest = true) : Legible (e.signs gap blanks) rest := by
  induction h generalizing blanks rest with
  | name _ hword => exact ⟨Scan.lexes_word hword (by decide) hrest, trivial⟩
  | number hne hdigits => exact ⟨Scan.lexes_number hne hdigits hrest, trivial⟩
  | string htext hquote hslash => exact ⟨Scan.lexes_string htext hquote hslash, trivial⟩
  | call hfunction htoken _ ih =>
      have hword := mem_wordKinds_of_isFunction hfunction
      rw [signs, classify_of_oneToken htoken hword]
      refine ⟨Scan.lexes_word htoken hword rfl, Scan.lexes_openParen, ?_⟩
      exact Scan.legible_append_iff.2
        ⟨legible_args gap false ih rfl, Scan.lexes_closeParen, trivial⟩
  | paren _ ih =>
      rw [signs]
      refine ⟨Scan.lexes_openParen, ?_⟩
      exact Scan.legible_append_iff.2 ⟨ih 0 _ rfl, Scan.lexes_closeParen, trivial⟩
  | @binary op lhs rhs _ hrhs ihl ihr =>
      obtain ⟨sign, others, hsigns, hblanks, -⟩ := hrhs.head gap 1
      obtain ⟨more, hmore⟩ := spell_blank hblanks others
      rw [signs]
      refine Scan.legible_append_iff.2 ⟨ihl blanks _ rfl, ?_, ihr 1 rest hrest⟩
      rw [hsigns, hmore]
      exact Scan.lexes_operator op

theorem setsApart_comparison (op : CompareOp) (rest : List Char) :
    setsApart (op.text.toList ++ rest) = true := by
  cases op <;> rfl

-- The keywords of a printed text, a command in front and the connectives.
def printedKeywords : List (Kind × String) :=
  [(.openingCommand, "search"), (.neg, "NOT"), (.conj, "AND"), (.disj, "OR")]

theorem printedKeywords_oneToken : ∀ word ∈ printedKeywords, OneToken word.1 word.2 := by
  have htokens : ∀ word ∈ printedKeywords, Scan.tokens word.2 =
      .ok [⟨word.1, word.2, 0⟩, ⟨.finish, "", word.2.length⟩] := by decide +kernel
  exact fun word hword => ⟨_, _, htokens word hword, rfl⟩

theorem lexes_keyword {kind : Kind} {text : String} (h : (kind, text) ∈ printedKeywords)
    {sign : Sign} {signs : List Sign} (hblanks : sign.blanks = 1) :
    Lexes ⟨blanks, kind, text⟩ (Sign.spell (sign :: signs) ++ rest) := by
  have hkinds : ∀ word ∈ printedKeywords, word.1 ∈ Scan.wordKinds := by decide
  obtain ⟨more, hmore⟩ := spell_blank hblanks signs
  rw [hmore]
  exact Scan.lexes_word (printedKeywords_oneToken _ h) (hkinds _ h) rfl

theorem Operation.Printable.legible {o : Operation} (h : o.Printable) (gap blanks : Nat)
    (rest : List Char) (hrest : setsApart rest = true) : Legible (o.signs gap blanks) rest := by
  induction h generalizing blanks rest with
  | @compare field op value _ _ hword hvalue =>
      have hlegible := hvalue.legible gap 0 rest hrest
      obtain ⟨sign, others, hsigns, hblanks, hkind⟩ := hvalue.head gap 0
      rw [hsigns] at hlegible
      rw [signs, hsigns]
      refine ⟨Scan.lexes_word hword (by decide) ?_, ?_, hlegible⟩
      · rw [Scan.spell_cons, List.append_assoc, List.append_assoc]
        exact setsApart_comparison op _
      · exact Scan.lexes_comparison op (head_not_eq hlegible hblanks hkind)
  | not hinner ih =>
      obtain ⟨sign, others, hsigns, hblanks, -⟩ := hinner.head gap 1
      rw [signs]
      refine ⟨?_, ih 1 rest hrest⟩
      rw [hsigns]
      exact lexes_keyword (by decide) hblanks
  | paren _ ih =>
      rw [signs]
      refine ⟨Scan.lexes_openParen, ?_⟩
      exact Scan.legible_append_iff.2 ⟨ih 0 _ rfl, Scan.lexes_closeParen, trivial⟩
  | and _ hrhs ihl ihr =>
      obtain ⟨sign, others, hsigns, hblanks, -⟩ := hrhs.head gap 1
      rw [signs]
      refine Scan.legible_append_iff.2 ⟨ihl blanks _ rfl, ?_, ihr 1 rest hrest⟩
      rw [hsigns]
      exact lexes_keyword (by decide) hblanks
  | or _ hrhs ihl ihr =>
      obtain ⟨sign, others, hsigns, hblanks, -⟩ := hrhs.head gap 1
      rw [signs]
      refine Scan.legible_append_iff.2 ⟨ihl blanks _ rfl, ?_, ihr 1 rest hrest⟩
      rw [hsigns]
      exact lexes_keyword (by decide) hblanks

end Legible

end SearchPipeline
