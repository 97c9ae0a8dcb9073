import Mathlib.Data.Option.Basic
import SearchPipeline.Proofs.Grammar.Balance
import SearchPipeline.Proofs.Grammar.Relabel

namespace SearchPipeline.Grammar

-- How the marks of one tape are carried over to another: their indices, and the texts of names. On
-- either tape some marks at the front may have no counterpart.
structure Carry where
  index : Nat → Nat
  text : Name → String
  mono : ∀ a b, a ≤ b → index a ≤ index b
  here : Nat := 0
  there : Nat := 0

namespace Carry

def relabel (carry : Carry) : Relabel :=
  ⟨carry.text, fun span => ⟨carry.index span.start, carry.index (span.stop - 1) + 1⟩⟩

variable (carry : Carry)

theorem place_single (index : Nat) :
    carry.relabel.place (.single index) = .single (carry.index index) := rfl

theorem joins : carry.relabel.Joins := by
  intro a b
  have hmin : ∀ x y, carry.index (min x y) = min (carry.index x) (carry.index y) := by
    intro x y
    rcases Nat.le_total x y with h | h
    · rw [Nat.min_eq_left h, Nat.min_eq_left (carry.mono x y h)]
    · rw [Nat.min_eq_right h, Nat.min_eq_right (carry.mono y x h)]
  have hmax : ∀ x y, carry.index (max x y - 1) + 1 =
      max (carry.index (x - 1) + 1) (carry.index (y - 1) + 1) := by
    intro x y
    rcases Nat.le_total x y with h | h
    · have := carry.mono (x - 1) (y - 1) (by omega)
      rw [Nat.max_eq_right h, Nat.max_eq_right (by omega)]
    · have := carry.mono (y - 1) (x - 1) (by omega)
      rw [Nat.max_eq_left h, Nat.max_eq_left (by omega)]
  simp only [relabel, Span.join, hmin, hmax]

end Carry

-- The first tape ends where the second goes on with a `|`, and the brackets open there were open all
-- along.
structure Tape.EndsAtPipe (carry : Carry) (tape other : Tape) (pos : Nat) : Prop where
  finish : tape.kind (pos + carry.here) = .finish
  pipe : other.kind (pos + carry.there) = .pipe
  lowest : ∀ before, before ≤ pos →
    tape.height (pos + carry.here) ≤ tape.height (before + carry.here)

-- The second tape carries what the first one has. Names may have other texts.
structure Tape.Carries (carry : Carry) (tape other : Tape) : Prop where
  orderly : tape.Orderly
  others_orderly : other.Orderly
  size : tape.size + carry.there ≤ other.size + carry.here
  kind : ∀ pos, pos + carry.here < tape.size →
    other.kind (pos + carry.there) = tape.kind (pos + carry.here) ∨
      tape.EndsAtPipe carry other pos
  index : ∀ pos, pos + carry.here < tape.size →
    other.index (pos + carry.there) = carry.index (tape.index (pos + carry.here))
  name : ∀ pos use, nameUse? (tape.kind (pos + carry.here)) = some use →
    (other.mark (pos + carry.there)).text = carry.text
      ⟨use, (tape.mark (pos + carry.here)).text, .single (tape.index (pos + carry.here))⟩
  text : ∀ pos, tape.kind (pos + carry.here) ≠ .word → tape.kind (pos + carry.here) ≠ .finish →
    (other.mark (pos + carry.there)).text = (tape.mark (pos + carry.here)).text
  left : ∀ pos, tape.kind (pos + carry.here) = .star →
    other.attachedLeft (pos + carry.there) = tape.attachedLeft (pos + carry.here)
  right : ∀ pos, tape.kind (pos + carry.here) = .star →
    other.attachedRight (pos + carry.there) = tape.attachedRight (pos + carry.here)

namespace Tape.Carries

variable {carry : Carry} {tape other : Tape} (h : tape.Carries carry other) {pos : Nat}

include h

theorem kind_eq (hkind : tape.kind (pos + carry.here) ≠ .finish) :
    other.kind (pos + carry.there) = tape.kind (pos + carry.here) := by
  have hsize := h.orderly.ends _ hkind
  rcases h.kind pos (by omega) with hsame | hends
  · exact hsame
  · exact absurd hends.finish hkind

theorem next (hkind : tape.kind (pos + carry.here) ≠ .finish) :
    tape.next (pos + carry.here) = pos + 1 + carry.here ∧
      other.next (pos + carry.there) = pos + 1 + carry.there := by
  have hother : other.kind (pos + carry.there) ≠ .finish := by rwa [h.kind_eq hkind]
  rw [h.orderly.next_eq hkind, h.others_orderly.next_eq hother]
  omega

theorem mark_index (hpos : pos + carry.here < tape.size) :
    (other.mark (pos + carry.there)).index = carry.index (tape.mark (pos + carry.here)).index :=
  h.index pos hpos

theorem span {first : Nat} (hfirst : first + carry.here < tape.size)
    (hpos : pos + carry.here < tape.size) :
    other.span (first + carry.there) (pos + carry.there) =
      carry.relabel.place (tape.span (first + carry.here) (pos + carry.here)) := by
  have hlast : ∀ shift, max (pos + shift) (first + shift + 1) - 1 =
      (max pos (first + 1) - 1) + shift := by omega
  simp only [Tape.span, hlast, Carry.relabel, Nat.add_sub_cancel, h.index first hfirst]
  rw [h.index _ (by omega)]

-- Where more brackets are open than before, neither tape ends.
theorem same_of_height {before : Nat} (hpos : pos + carry.here < tape.size) (hle : before ≤ pos)
    (hheight : tape.height (before + carry.here) < tape.height (pos + carry.here)) :
    other.kind (pos + carry.there) = tape.kind (pos + carry.here) := by
  rcases h.kind pos hpos with hsame | hends
  · exact hsame
  · exact absurd hheight (Int.not_lt.2 (hends.lowest before hle))

end Tape.Carries

-- What is remembered of reading an expression, on the other tape.
def Carry.entry (carry : Carry) (entry : Option (Expr × Nat)) : Option (Expr × Nat) :=
  entry.map fun read => (read.1.relabel carry.relabel, read.2 - carry.here + carry.there)

-- What the attempts so far have left behind on the two tapes. What the first tape remembers is
-- derived from its tokens.
structure Trail.Carries (carry : Carry) (tape : Tape) (trail other : Trail) : Prop where
  memo : ∀ pos least : Nat, other.memo[(pos + carry.there, least)]? =
    trail.memo[(pos + carry.here, least)]?.map carry.entry
  tooDeep : other.tooDeep.isSome = trail.tooDeep.isSome
  furthest : Option.Rel (fun pos pos' => ∃ at', pos = at' + carry.here ∧ pos' = at' + carry.there)
    trail.furthest other.furthest
  wanted : other.wanted = trail.wanted
  keeps : trail.Keeps (derived tape)

namespace Trail.Carries

variable {carry : Carry} {tape : Tape} {trail other : Trail}

theorem empty : ({} : Trail).Carries carry tape {} := ⟨by simp, rfl, .none, rfl, Trail.keeps_empty⟩

-- Which failure is further on does not depend on how many marks stand before both.
theorem note (h : trail.Carries carry tape other) (pos : Nat) (wanted : Wanted) :
    (trail.note (pos + carry.here) wanted).Carries carry tape
      (other.note (pos + carry.there) wanted) := by
  obtain ⟨hmemo, htooDeep, hfurthest, hwanted, hkeeps⟩ := h
  have hnew : Option.Rel (fun pos pos' => ∃ at', pos = at' + carry.here ∧ pos' = at' + carry.there)
      (some (pos + carry.here)) (some (pos + carry.there)) := .some ⟨pos, rfl, rfl⟩
  unfold Trail.note
  generalize hfirst : trail.furthest = first at hfurthest ⊢
  generalize hsecond : other.furthest = second at hfurthest ⊢
  cases hfurthest with
  | none => exact ⟨hmemo, htooDeep, hnew, rfl, hkeeps⟩
  | some hplaces =>
      obtain ⟨at', rfl, rfl⟩ := hplaces
      have hold : Option.Rel (fun pos pos' => ∃ at', pos = at' + carry.here ∧
          pos' = at' + carry.there) trail.furthest other.furthest := by
        rw [hfirst, hsecond]
        exact .some ⟨at', rfl, rfl⟩
      simp only [Nat.add_lt_add_iff_right, Nat.add_right_cancel_iff, hwanted]
      split
      · exact ⟨hmemo, htooDeep, hold, hwanted, hkeeps⟩
      split
      · split
        · exact ⟨hmemo, htooDeep, hold, hwanted, hkeeps⟩
        · exact ⟨hmemo, htooDeep, .some ⟨at', rfl, rfl⟩, rfl, hkeeps⟩
      · exact ⟨hmemo, htooDeep, hnew, rfl, hkeeps⟩

theorem fresh (h : trail.Carries carry tape other) :
    trail.fresh.Carries carry tape other.fresh := ⟨h.memo, h.tooDeep, .none, rfl, h.keeps.fresh⟩

theorem insert (h : trail.Carries carry tape other) (pos least : Nat)
    (entry : Option (Expr × Nat)) (hentry : ∀ expr stop, entry = some (expr, stop) →
      Derives tape (.expr expr) (pos + carry.here) stop) :
    ({ trail with memo := trail.memo.insert (pos + carry.here, least) entry } : Trail).Carries carry
      tape { other with
        memo := other.memo.insert (pos + carry.there, least) (carry.entry entry) } := by
  refine ⟨fun at' least' => ?_, h.tooDeep, h.furthest, h.wanted, h.keeps.insert _ _ _ hentry⟩
  simp only [Std.TreeMap.getElem?_insert, compareKeys_eq_iff, Prod.mk.injEq,
    Nat.add_right_cancel_iff]
  split
  · rfl
  · exact h.memo at' least'

end Trail.Carries

-- A value on one tape and what it becomes on the other.
abbrev Becomes {α β : Type} (f : α → β) (value : α) (value' : β) (_ : Nat) : Prop :=
  value' = f value

-- Two replies are both done, at corresponding positions and with values that are related, or both
-- stuck.
inductive Reply.Agrees {α β : Type} (carry : Carry) (tape : Tape) (start : Nat)
    (post : α → β → Nat → Prop) : Reply α → Reply β → Prop where
  | done {value : α} {value' : β} {pos : Nat} {trail trail' : Trail} :
      post value value' pos → start ≤ pos → pos + carry.here < tape.size →
      trail.Carries carry tape trail' →
      Agrees carry tape start post (.done value (pos + carry.here) trail)
        (.done value' (pos + carry.there) trail')
  | stuck {pos : Nat} {trail trail' : Trail} :
      pos + carry.here < tape.size → trail.Carries carry tape trail' →
      Agrees carry tape start post (.stuck (pos + carry.here) trail)
        (.stuck (pos + carry.there) trail')

namespace Rule

variable {α α' β β' σ σ' : Type} {carry : Carry} {tape other : Tape} {pos : Nat}
  {P : α → α' → Nat → Prop} {Q : β → β' → Nat → Prop}

-- From a position on, two rules give replies on two tapes that agree.
def Agrees (carry : Carry) (tape other : Tape) (pos : Nat) (post : α → α' → Nat → Prop)
    (rule : Rule α) (rule' : Rule α') : Prop :=
  pos + carry.here < tape.size → ∀ trail trail', trail.Carries carry tape trail' →
    (rule tape (pos + carry.here) trail).Agrees carry tape pos post
      (rule' other (pos + carry.there) trail')

-- The state of a repetition after one more step, or after the last one.
inductive Steps (I : σ → σ' → Nat → Prop) (state : σ) (state' : σ') (pos : Nat) :
    Option σ → Option σ' → Nat → Prop where
  | more {next : σ} {next' : σ'} {stop : Nat} : I next next' stop → pos < stop →
      Steps I state state' pos (some next) (some next') stop
  | enough {stop : Nat} : I state state' stop → Steps I state state' pos none none stop

namespace Agrees

theorem mono {rule : Rule α} {rule' : Rule α'} {R : α → α' → Nat → Prop}
    (h : Agrees carry tape other pos P rule rule')
    (himp : ∀ value value' stop, P value value' stop → R value value' stop) :
    Agrees carry tape other pos R rule rule' := by
  intro hpos trail trail' htrail
  have hrule := h hpos trail trail' htrail
  generalize rule tape (pos + carry.here) trail = reply at hrule ⊢
  generalize rule' other (pos + carry.there) trail' = reply' at hrule ⊢
  cases hrule with
  | done hvalue hle hstop hrest => exact .done (himp _ _ _ hvalue) hle hstop hrest
  | stuck hstop hrest => exact .stuck hstop hrest

-- A rule does not go back.
theorem forward {rule : Rule α} {rule' : Rule α'} (h : Agrees carry tape other pos P rule rule') :
    Agrees carry tape other pos (fun value value' stop => P value value' stop ∧ pos ≤ stop) rule
      rule' := by
  intro hpos trail trail' htrail
  have hrule := h hpos trail trail' htrail
  generalize rule tape (pos + carry.here) trail = reply at hrule ⊢
  generalize rule' other (pos + carry.there) trail' = reply' at hrule ⊢
  cases hrule with
  | done hvalue hle hstop hrest => exact .done ⟨hvalue, hle⟩ hle hstop hrest
  | stuck hstop hrest => exact .stuck hstop hrest

-- What the first rule ensures by itself.
theorem ensuring {rule : Rule α} {rule' : Rule α'} {R : α → Nat → Prop}
    (h : Agrees carry tape other pos P rule rule')
    (hensures : Ensures (derived tape) tape (pos + carry.here) rule R) :
    Agrees carry tape other pos
      (fun value value' stop => P value value' stop ∧ R value (stop + carry.here)) rule rule' := by
  intro hpos trail trail' htrail
  have hrule := h hpos trail trail' htrail
  have hmeets := hensures trail htrail.keeps
  generalize rule tape (pos + carry.here) trail = reply at hrule hmeets ⊢
  generalize rule' other (pos + carry.there) trail' = reply' at hrule ⊢
  cases hrule with
  | done hvalue hle hstop hrest => exact .done ⟨hvalue, hmeets.2⟩ hle hstop hrest
  | stuck hstop hrest => exact .stuck hstop hrest

end Agrees

end Rule

theorem Reply.Agrees.after {α α' : Type} {carry : Carry} {tape : Tape} {start mid : Nat}
    {P : α → α' → Nat → Prop} {reply : Reply α} {reply' : Reply α'} (hle : start ≤ mid)
    (h : reply.Agrees carry tape mid P reply') : reply.Agrees carry tape start P reply' := by
  cases h with
  | done hvalue hmid hstop hrest => exact .done hvalue (Nat.le_trans hle hmid) hstop hrest
  | stuck hstop hrest => exact .stuck hstop hrest

namespace Rule.Agrees

variable {α α' β β' σ σ' : Type} {carry : Carry} {tape other : Tape} {pos : Nat}
  {P : α → α' → Nat → Prop} {Q : β → β' → Nat → Prop}

theorem bind {rule : Rule α} {rule' : Rule α'} {next : α → Rule β} {next' : α' → Rule β'}
    (h : Agrees carry tape other pos P rule rule')
    (hnext : ∀ value value' mid, P value value' mid →
      Agrees carry tape other mid Q (next value) (next' value')) :
    Agrees carry tape other pos Q (rule >>= next) (rule' >>= next') := by
  intro hpos trail trail' htrail
  have hrule := h hpos trail trail' htrail
  change (Rule.bind rule next tape _ trail).Agrees carry tape pos Q
    (Rule.bind rule' next' other _ trail')
  unfold Rule.bind
  generalize rule tape (pos + carry.here) trail = reply at hrule ⊢
  generalize rule' other (pos + carry.there) trail' = reply' at hrule ⊢
  cases hrule with
  | done hvalue hle hmid hrest => exact (hnext _ _ _ hvalue hmid _ _ hrest).after hle
  | stuck hstop hrest => exact .stuck hstop hrest

theorem pure {value : α} {value' : α'} (h : P value value' pos) :
    Agrees carry tape other pos P (Pure.pure value : Rule α) (Pure.pure value' : Rule α') :=
  fun hpos _ _ htrail => .done h (Nat.le_refl pos) hpos htrail

theorem ite {c : Prop} [Decidable c] {yes no : Rule α} {yes' no' : Rule α'}
    (hyes : c → Agrees carry tape other pos P yes yes')
    (hno : ¬c → Agrees carry tape other pos P no no') :
    Agrees carry tape other pos P (if c then yes else no) (if c then yes' else no') := by
  by_cases hc : c
  · simpa only [if_pos hc] using hyes hc
  · simpa only [if_neg hc] using hno hc

theorem position_bind {next : Nat → Rule β} {next' : Nat → Rule β'}
    (h : pos + carry.here < tape.size →
      Agrees carry tape other pos Q (next (pos + carry.here)) (next' (pos + carry.there))) :
    Agrees carry tape other pos Q (position >>= next) (position >>= next') :=
  fun hpos => h hpos hpos

theorem look_bind {view : Tape → Nat → α} {view' : Tape → Nat → α'} {next : α → Rule β}
    {next' : α' → Rule β'}
    (h : Agrees carry tape other pos Q (next (view tape (pos + carry.here)))
      (next' (view' other (pos + carry.there)))) :
    Agrees carry tape other pos Q (look view >>= next) (look view' >>= next') := h

theorem miss (wanted : Wanted) :
    Agrees carry tape other pos P (Rule.miss wanted) (Rule.miss wanted) :=
  fun hpos _ _ htrail => .stuck hpos (htrail.note pos wanted)

theorem refuse : Agrees carry tape other pos P (Rule.refuse : Rule α) (Rule.refuse : Rule α') :=
  fun hpos _ _ htrail => .stuck hpos htrail

-- What follows an attempt goes on behind it, or where it began.
theorem attempt_bind {rule : Rule α} {rule' : Rule α'} {next : Option α → Rule β}
    {next' : Option α' → Rule β'} (h : Agrees carry tape other pos P rule rule')
    (hsome : ∀ value value' mid, P value value' mid →
      Agrees carry tape other mid Q (next (some value)) (next' (some value')))
    (hnone : Agrees carry tape other pos Q (next none) (next' none)) :
    Agrees carry tape other pos Q (Rule.attempt rule >>= next) (Rule.attempt rule' >>= next') := by
  intro hpos trail trail' htrail
  have hrule := h hpos trail trail' htrail
  change (Rule.bind _ next tape _ trail).Agrees carry tape pos Q
    (Rule.bind _ next' other _ trail')
  unfold Rule.bind Rule.attempt
  generalize rule tape (pos + carry.here) trail = reply at hrule ⊢
  generalize rule' other (pos + carry.there) trail' = reply' at hrule ⊢
  cases hrule with
  | done hvalue hle hmid hrest => exact (hsome _ _ _ hvalue hmid _ _ hrest).after hle
  | stuck _ hrest => exact hnone hpos _ _ hrest

theorem attempt {rule : Rule α} {rule' : Rule α'} {R : Option α → Option α' → Nat → Prop}
    (h : Agrees carry tape other pos (fun value value' => R (some value) (some value')) rule rule')
    (hnone : R none none pos) :
    Agrees carry tape other pos R (Rule.attempt rule) (Rule.attempt rule') := by
  intro hpos trail trail' htrail
  have hrule := h hpos trail trail' htrail
  unfold Rule.attempt
  generalize rule tape (pos + carry.here) trail = reply at hrule ⊢
  generalize rule' other (pos + carry.there) trail' = reply' at hrule ⊢
  cases hrule with
  | done hvalue hle hmid hrest => exact .done hvalue hle hmid hrest
  | stuck _ hrest => exact .done hnone (Nat.le_refl pos) hpos hrest

theorem firstOf {rules : List (Rule α)} {rules' : List (Rule α')}
    (h : List.Forall₂ (Agrees carry tape other pos P) rules rules') :
    Agrees carry tape other pos P (Rule.firstOf rules) (Rule.firstOf rules') := by
  induction h with
  | nil => exact refuse
  | cons hfirst hrest ih =>
      cases hrest with
      | nil => exact hfirst
      | cons hsecond hrest =>
          refine attempt_bind hfirst ?_ ih
          intro value value' mid hvalue
          exact pure hvalue

-- Every step but the last takes a token, so with as many steps as there are tokens left a
-- repetition ends because a step declines, on both tapes at the same one.
theorem iterate {step : σ → Rule (Option σ)} {step' : σ' → Rule (Option σ')}
    {I : σ → σ' → Nat → Prop}
    (hstep : ∀ state state' pos, I state state' pos →
      Agrees carry tape other pos (Steps I state state' pos) (step state) (step' state'))
    (fuel fuel' : Nat) (state : σ) (state' : σ') (pos : Nat) (h : I state state' pos)
    (hfuel : tape.size ≤ pos + carry.here + fuel) (hle : fuel ≤ fuel') :
    Agrees carry tape other pos I (Rule.iterate step fuel state)
      (Rule.iterate step' fuel' state') := by
  induction fuel generalizing fuel' state state' pos with
  | zero => exact fun hpos => absurd hpos (Nat.not_lt.2 hfuel)
  | succ fuel ih =>
      obtain ⟨fuel', rfl⟩ : ∃ more, fuel' = more + 1 := ⟨fuel' - 1, by omega⟩
      refine bind (hstep state state' pos h) ?_
      intro next next' mid hnext
      cases hnext with
      | more hstate hlt => exact ih fuel' _ _ mid hstate (by omega) (by omega)
      | enough hstate => exact pure hstate

theorem whileShallow {rule : Rule α} {rule' : Rule α'} (h : Agrees carry tape other pos P rule rule') :
    Agrees carry tape other pos P (Grammar.whileShallow rule) (Grammar.whileShallow rule') := by
  intro hpos trail trail' htrail
  unfold Grammar.whileShallow
  rw [htrail.tooDeep]
  split
  · exact .stuck hpos htrail
  · exact h hpos trail trail' htrail

theorem sink :
    Agrees carry tape other pos P (Grammar.sink : Rule α) (Grammar.sink : Rule α') :=
  fun hpos _ _ htrail =>
    .stuck hpos ⟨htrail.memo, rfl, htrail.furthest, htrail.wanted, htrail.keeps⟩

theorem remembered (hot : tape.Orderly) {least : Nat} {rule rule' : Rule Expr}
    (h : Agrees carry tape other pos (Becomes (Expr.relabel carry.relabel)) rule rule') :
    Agrees carry tape other pos (Becomes (Expr.relabel carry.relabel))
      (Grammar.remembered least rule) (Grammar.remembered least rule') := by
  intro hpos trail trail' htrail
  unfold Grammar.remembered
  rw [htrail.memo]
  cases hentry : trail.memo[(pos + carry.here, least)]? with
  | none => exact h hpos trail trail' htrail
  | some entry =>
      cases entry with
      | none => exact .stuck hpos htrail
      | some read =>
          obtain ⟨expr, stop⟩ := read
          have hderives : Derives tape (.expr expr) (pos + carry.here) stop :=
            htrail.keeps _ _ _ _ hentry
          have hlt := hderives.lt
          obtain ⟨mid, rfl⟩ : ∃ mid, stop = mid + carry.here := ⟨stop - carry.here, by omega⟩
          have hreply : Reply.Agrees carry tape pos (Becomes (Expr.relabel carry.relabel))
              (.done expr (mid + carry.here) trail)
              (.done (expr.relabel carry.relabel) (mid + carry.there) trail') :=
            .done rfl (by omega) (hderives.lt_size hot) htrail
          simpa only [Option.map_some, Carry.entry, Nat.add_sub_cancel] using hreply

theorem record {least : Nat} {rule rule' : Rule Expr}
    (h : Agrees carry tape other pos (Becomes (Expr.relabel carry.relabel)) rule rule')
    (hensures : Ensures (derived tape) tape (pos + carry.here) rule
      fun expr stop => Derives tape (.expr expr) (pos + carry.here) stop) :
    Agrees carry tape other pos (Becomes (Expr.relabel carry.relabel)) (Grammar.record least rule)
      (Grammar.record least rule') := by
  intro hpos trail trail' htrail
  have hrule := h.ensuring hensures hpos trail trail' htrail
  unfold Grammar.record
  generalize rule tape (pos + carry.here) trail = reply at hrule ⊢
  generalize rule' other (pos + carry.there) trail' = reply' at hrule ⊢
  cases hrule with
  | @done expr expr' stop _ _ hvalue hle hstop hrest =>
      obtain ⟨rfl, hderives⟩ := hvalue
      have hinsert := hrest.insert pos least (some (expr, stop + carry.here)) (by
        rintro _ _ ⟨⟩
        exact hderives)
      rw [Carry.entry, Option.map_some, Nat.add_sub_cancel] at hinsert
      exact .done rfl hle hstop hinsert
  | stuck hstop hrest => exact .stuck hstop (hrest.insert pos least none (by simp))

section Tapes

variable {next : Kind → Rule β} {next' : Kind → Rule β'} (hc : tape.Carries carry other)

include hc

-- No rule but those for stages tells the end of a tape from a `|`.
theorem peek_bind (hend : next' .pipe = next' .finish)
    (h : Agrees carry tape other pos Q (next (tape.kind (pos + carry.here)))
      (next' (tape.kind (pos + carry.here)))) :
    Agrees carry tape other pos Q (peek >>= next) (peek >>= next') := by
  intro hpos
  refine look_bind ?_ hpos
  rcases hc.kind pos hpos with hsame | hends
  · rw [hsame]
    exact h
  · rw [hends.pipe, hend, ← hends.finish]
    exact h

theorem peekAt_bind (hend : next' .pipe = next' .finish)
    (h : tape.kind (pos + carry.here) ≠ .finish →
      Agrees carry tape other pos Q (next (tape.kind (pos + carry.here + 1)))
        (next' (tape.kind (pos + carry.here + 1))))
    (hfinish : tape.kind (pos + carry.here) = .finish →
      ∀ kind kind', Agrees carry tape other pos Q (next kind) (next' kind')) :
    Agrees carry tape other pos Q (peekAt 1 >>= next) (peekAt 1 >>= next') := by
  by_cases hkind : tape.kind (pos + carry.here) = .finish
  · exact look_bind (hfinish hkind _ _)
  have hsize := hc.orderly.ends _ hkind
  refine look_bind ?_
  rw [Nat.add_right_comm] at hsize
  have hahead := h hkind
  simp only [Nat.add_right_comm _ _ 1] at hahead ⊢
  rcases hc.kind (pos + 1) hsize with hsame | hends
  · rw [hsame]
    exact hahead
  · rw [hends.pipe, hend, ← hends.finish]
    exact hahead

theorem spanFrom_bind {first : Nat} (hfirst : first + carry.here < tape.size)
    {next : Span → Rule β} {next' : Span → Rule β'}
    (h : Agrees carry tape other pos Q
      (next (tape.span (first + carry.here) (pos + carry.here)))
      (next' (carry.relabel.place (tape.span (first + carry.here) (pos + carry.here))))) :
    Agrees carry tape other pos Q (spanFrom (first + carry.here) >>= next)
      (spanFrom (first + carry.there) >>= next') := by
  intro hpos
  refine look_bind ?_ hpos
  rw [hc.span hfirst hpos]
  exact h

theorem advance_bind {next : Mark → Rule β} {next' : Mark → Rule β'}
    (hkind : tape.kind (pos + carry.here) ≠ .finish)
    (h : Agrees carry tape other (pos + 1) Q (next (tape.mark (pos + carry.here)))
      (next' (other.mark (pos + carry.there)))) :
    Agrees carry tape other pos Q (advance >>= next) (advance >>= next') := by
  intro hpos trail trail' htrail
  have hsize := hc.orderly.ends _ hkind
  obtain ⟨hnext, hnext'⟩ := hc.next hkind
  change (next _ tape (tape.next _) trail).Agrees carry tape pos Q
    (next' _ other (other.next _) trail')
  rw [hnext, hnext']
  exact (h (by omega) trail trail' htrail).after (Nat.le_succ pos)

theorem expect (kind : Kind) (hends : kind ≠ .finish ∧ kind ≠ .pipe) :
    Agrees carry tape other pos
      (fun _ _ stop => tape.kind (pos + carry.here) = kind ∧ stop = pos + 1)
      (Rule.expect kind) (Rule.expect kind) := by
  obtain ⟨hfinish, hpipe⟩ := hends
  refine peek_bind hc ?_ (ite (fun hkind => ?_) fun _ => miss _)
  · rw [if_neg (Ne.symm hpipe), if_neg (Ne.symm hfinish)]
  · exact advance_bind hc (by rwa [hkind]) (pure ⟨hkind, rfl⟩)

-- Whether a `|` is there can be told where the tapes do not differ.
theorem eat (kind : Kind) (hfinish : kind ≠ .finish)
    (hsame : kind = .pipe → other.kind (pos + carry.there) = tape.kind (pos + carry.here)) :
    Agrees carry tape other pos
      (fun taken taken' stop => taken' = taken ∧ stop = if taken then pos + 1 else pos)
      (Rule.eat kind) (Rule.eat kind) := by
  intro hpos
  have hkinds : other.kind (pos + carry.there) = kind ↔ tape.kind (pos + carry.here) = kind := by
    rcases hc.kind pos hpos with h | hends
    · rw [h]
    · by_cases hpipe : kind = .pipe
      · rw [hsame hpipe]
      · rw [hends.pipe, hends.finish]
        exact ⟨fun h => absurd h.symm hpipe, fun h => absurd h.symm hfinish⟩
  refine look_bind ?_ hpos
  simp only [hkinds]
  refine ite (fun hkind => ?_) fun _ => pure ⟨rfl, rfl⟩
  exact advance_bind hc (by rwa [hkind]) (pure ⟨rfl, rfl⟩)

theorem repeatStep {step : σ → Rule (Option σ)} {step' : σ' → Rule (Option σ')}
    {I : σ → σ' → Nat → Prop} {state : σ} {state' : σ'}
    (hstep : ∀ state state' pos, I state state' pos →
      Agrees carry tape other pos (Steps I state state' pos) (step state) (step' state'))
    (h : I state state' pos) :
    Agrees carry tape other pos I (Rule.repeatStep step state) (Rule.repeatStep step' state') := by
  have hsize := hc.size
  exact look_bind (iterate hstep _ _ state state' pos h (by omega) (by omega))

end Tapes

end Rule.Agrees

end SearchPipeline.Grammar
