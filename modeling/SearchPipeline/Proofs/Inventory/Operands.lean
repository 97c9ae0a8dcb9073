import SearchPipeline.Proofs.Inventory.Mentions
import SearchPipeline.Proofs.Inventory.Walk
import SearchPipeline.Proofs.Text.Split

namespace SearchPipeline

open Grammar

-- What stands in the parentheses of a text is what is read there, if no others enclose it.
theorem Reference.eq_of_callArgument? {function content more field : List Char}
    (hfunction : '(' ∉ function) (hmore : ')' ∉ more)
    (h : callArgument? (function ++ '(' :: (content ++ ')' :: more)) = some field) :
    field = content := by
  have hinner : (content ++ ')' :: more).reverse = more.reverse ++ ')' :: content.reverse := by simp
  rw [callArgument?, Text.cut?_append_cons hfunction] at h
  simp only [bind, Option.bind_some, hinner,
    Text.cut?_append_cons (List.mem_reverse.not.2 hmore), List.reverse_reverse] at h
  split at h
  · exact (Option.some.inj h).symm
  · cases h

-- The name that a call has for its only argument.
def Expr.calledOn? : Expr → Option Name
  | .call _ [arg] _ => arg.asName?
  | _ => none

theorem Expr.calledOn?_eq_some {expr : Expr} {name : Name} (h : expr.calledOn? = some name) :
    ∃ function span, expr = .call function [.value (.name name)] span := by
  unfold calledOn? at h
  split at h
  · next function arg span =>
    obtain rfl := asName?_eq_some.1 h
    exact ⟨function, span, rfl⟩
  · cases h

namespace Operation

-- The name, when the operation is nothing but one.
def loneName? (operation : Operation) : Option Name := operation.asBare?.bind Expr.asName?

-- The name that a call is made on, when the operation is nothing but that call, be it with an `AS`
-- behind it.
def calledOn? : Operation → Option Name
  | .bare expr _ | .rename expr _ _ => expr.calledOn?
  | _ => none

theorem loneName?_eq_some {operation : Operation} {name : Name}
    (h : operation.loneName? = some name) : ∃ span, operation = .bare (.value (.name name)) span := by
  cases operation with
  | bare expr span =>
      obtain rfl := Expr.asName?_eq_some.1 h
      exact ⟨span, rfl⟩
  | _ => cases h

theorem uses_of_calledOn? {operation : Operation} {name : Name}
    (h : operation.calledOn? = some name) : ∃ expr ∈ operation.expressions, expr.Uses name := by
  cases operation with
  | bare expr span | rename expr target span =>
      obtain ⟨function, within, rfl⟩ := Expr.calledOn?_eq_some h
      exact ⟨_, List.mem_cons_self, .argument List.mem_cons_self .value⟩
  | _ => cases h

end Operation

namespace Grammar

namespace Derives

variable {tape : Tape} {name : Name} {function : FunctionName} {first stop : Nat}

theorem name_of_expr (h : Derives tape (.expr (.value (.name name))) first stop) :
    Derives tape (.name name) first stop := by
  have hspells := h.spells
  simp only [Node.parts, Node.exprParts, Spells.node_iff, Spells.nil_iff] at hspells
  obtain ⟨_, hvalue, rfl⟩ := hspells
  have hspells := hvalue.spells
  simp only [Node.parts, Node.valueParts, Spells.node_iff, Spells.nil_iff] at hspells
  obtain ⟨_, hname, rfl⟩ := hspells
  exact hname

theorem text_name (h : Derives tape (.name name) first stop) :
    (tape.mark first).text = name.text := by
  obtain ⟨-, rfl⟩ := h.token_of_parts rfl
  rw [h.fits.text _ rfl, Tape.textBetween_single]

-- A call on a name is four tokens.
theorem call {span : Span}
    (h : Derives tape (.expr (.call function [.value (.name name)] span)) first stop) :
    stop = first + 4 ∧ tape.kind first ∈ functionKinds ∧ tape.kind (first + 1) = .openParen ∧
      (tape.mark (first + 2)).text = name.text ∧ tape.kind (first + 3) = .closeParen := by
  have hspells := h.spells
  simp only [Node.parts, Node.exprParts, List.map_cons, List.map_nil, separated, List.flatMap_nil,
    List.cons_append, List.nil_append, Spells.node_iff, Spells.token_iff, Spells.nil_iff,
    List.mem_singleton] at hspells
  obtain ⟨mid, hfunction, hopen, last, harg, hclose, rfl⟩ := hspells
  obtain ⟨hkind, rfl⟩ := hfunction.token_of_parts rfl
  have hname := harg.name_of_expr
  obtain ⟨-, rfl⟩ := hname.token_of_parts rfl
  exact ⟨rfl, hkind, hopen, hname.text_name, hclose⟩

end Derives

end Grammar

namespace Query

section

variable {source : String} {query : Query} (hparse : Query.parse source = .ok query)

include hparse

-- A sign has its character for its text, and no character of a sign stands in a word.
theorem text_of_sign {pos : Nat} {sign : Char} {kind : Kind} (hkind : query.tape.kind pos = kind)
    (hsign : (sign, kind) ∈ Scan.Lexed.symbols) : (query.tape.mark pos).text.toList = [sign] := by
  subst hkind
  have hfinish : query.tape.kind pos ≠ .finish := by
    intro hfinish
    rw [hfinish] at hsign
    simp [Scan.Lexed.symbols] at hsign
  obtain ⟨token, hget, -, hsame, htext⟩ := Tape.token_of_kind hfinish
  have hscan := Scan.tokens_eq_ok_iff.1 (parse_eq_ok hparse).2.1
  have hown : token.kind = query.tape.kind pos := hsame
  have hsigned := hscan.text_of_symbol (List.mem_of_getElem? hget) (hown ▸ hsign)
  rwa [htext] at hsigned

theorem not_mem_word {pos : Nat} {kinds : List Kind} (hkind : query.tape.kind pos ∈ kinds)
    (hkinds : ∀ kind ∈ kinds, kind ∈ Scan.wordKinds) {sign : Char}
    (hsign : Scan.binds sign = false) : sign ∉ (query.tape.mark pos).text.toList := by
  have hword := hkinds _ hkind
  obtain ⟨token, hget, -, hsame, htext⟩ := Tape.token_of_kind (Scan.ne_finish_of_word hword)
  have hscan := Scan.tokens_eq_ok_iff.1 (parse_eq_ok hparse).2.1
  have hown : token.kind = query.tape.kind pos := hsame
  intro hmem
  have hbinds := hscan.binds_of_word (List.mem_of_getElem? hget) (hown ▸ hword) sign (htext ▸ hmem)
  rw [hsign] at hbinds
  cases hbinds

-- The text of an operation is that of the tokens it is derived from.
theorem operandText_eq {operation : Operation} (h : query.pipeline.Has (.operation operation)) :
    ∃ first stop, Derives query.tape (.operation operation) first stop ∧
      query.operandText operation = query.tape.textBetween first stop := by
  obtain ⟨last, hspells, -⟩ := parse_spells hparse
  obtain ⟨first, stop, -, hderives⟩ := derives_of_has hspells h
  refine ⟨first, stop, hderives, ?_⟩
  have hspan : operation.span = query.tape.span first stop := hderives.fits.span
  rw [operandText, hspan, compactText_span hderives.lt]
  exact fun pos hfirst hstop => Kind.ne_finish (hderives.grammatical hfirst hstop)

theorem operandText_name {name : Name} {span : Span}
    (h : query.pipeline.Has (.operation (.bare (.value (.name name)) span))) :
    query.operandText (.bare (.value (.name name)) span) = name.text := by
  obtain ⟨first, stop, hderives, htext⟩ := operandText_eq hparse h
  have hspells := hderives.spells
  simp only [Node.parts, Node.operationParts, Spells.node_iff, Spells.nil_iff] at hspells
  obtain ⟨_, hexpr, rfl⟩ := hspells
  rw [htext, ← hexpr.name_of_expr.fits.text _ rfl]

-- The text of a call on a name has no parentheses but those around the name.
theorem text_call {function : FunctionName} {name : Name} {span : Span} {first stop : Nat}
    (h : Derives query.tape (.expr (.call function [.value (.name name)] span)) first stop) :
    ∃ head, '(' ∉ head ∧ (query.tape.textBetween first stop).toList =
      head ++ '(' :: (name.text.toList ++ [')']) := by
  obtain ⟨rfl, hfunction, hopen, hname, hclose⟩ := h.call
  have hopen : _ = ['('] := text_of_sign hparse hopen (by decide)
  have hclose : _ = [')'] := text_of_sign hparse hclose (by decide)
  have hcount : first + 4 - first = 4 := by omega
  refine ⟨(query.tape.mark first).text.toList,
    not_mem_word hparse hfunction (by decide) (by decide +kernel), ?_⟩
  simp [Tape.textBetween, hcount, List.range'_succ, String.join, hname, hopen, hclose]

theorem operandText_call {operation : Operation} {name : Name}
    (h : query.pipeline.Has (.operation operation)) (hcall : operation.calledOn? = some name) :
    ∃ head more, '(' ∉ head ∧ ')' ∉ more ∧
      (query.operandText operation).toList = head ++ '(' :: (name.text.toList ++ ')' :: more) := by
  obtain ⟨first, stop, hderives, htext⟩ := operandText_eq hparse h
  have hspells := hderives.spells
  rw [htext]
  cases operation with
  | bare expr span =>
      obtain ⟨function, within, rfl⟩ := Expr.calledOn?_eq_some hcall
      simp only [Node.parts, Node.operationParts, Spells.node_iff, Spells.nil_iff] at hspells
      obtain ⟨_, hexpr, rfl⟩ := hspells
      obtain ⟨head, hhead, hcalled⟩ := text_call hparse hexpr
      exact ⟨head, [], hhead, List.not_mem_nil, hcalled⟩
  | rename expr target span =>
      obtain ⟨function, within, rfl⟩ := Expr.calledOn?_eq_some hcall
      simp only [Node.parts, Node.operationParts, Spells.node_iff, Spells.token_iff,
        Spells.nil_iff] at hspells
      obtain ⟨mid, hexpr, has, _, htarget, rfl⟩ := hspells
      obtain ⟨head, hhead, hcalled⟩ := text_call hparse hexpr
      obtain ⟨hname, rfl⟩ := htarget.token_of_parts rfl
      -- two words stand behind the call
      have hbehind : query.tape.textBetween mid (mid + 1 + 1) =
          (query.tape.mark mid).text ++ (query.tape.mark (mid + 1)).text := by
        rw [Tape.textBetween_append (Nat.le_succ mid) (Nat.le_succ _), Tape.textBetween_single,
          Tape.textBetween_single]
      refine ⟨head, (query.tape.mark mid).text.toList ++ (query.tape.mark (mid + 1)).text.toList,
        hhead, ?_, ?_⟩
      · rw [List.mem_append, not_or]
        refine ⟨not_mem_word hparse has (by decide) (by decide +kernel),
          not_mem_word hparse hname ?_ (by decide +kernel)⟩
        cases target.use <;> decide
      · rw [Tape.textBetween_append (Nat.le_of_lt hexpr.lt) (show mid ≤ mid + 1 + 1 by omega),
          String.toList_append, hcalled, hbehind, String.toList_append]
        simp
  | _ => cases hcall

end

end Query

end SearchPipeline
