import SearchPipeline.Proofs.Grammar.Tier

namespace SearchPipeline.Grammar

instance : Std.TransCmp compareKeys :=
  inferInstanceAs (Std.TransCmp (compareLex (compareOn Prod.fst) (compareOn Prod.snd)))

theorem compareKeys_eq_iff {a b : Nat × Nat} : compareKeys a b = .eq ↔ a = b := by
  simp [compareKeys, compareLex, compareOn, Ordering.then_eq_eq, Prod.ext_iff]

-- What is expected of an expression remembered at a position, read with operators of at least the
-- given strength, and of the position behind it.
abbrev Recall := Nat → Nat → Expr → Nat → Prop

def Trail.Keeps (known : Recall) (trail : Trail) : Prop :=
  ∀ pos least expr stop, trail.memo[(pos, least)]? = some (some (expr, stop)) →
    known pos least expr stop

namespace Trail

variable {known : Recall} {trail : Trail}

theorem keeps_empty : ({} : Trail).Keeps known := by
  intro pos least expr stop h
  simp at h

-- A failure that is noted becomes the furthest one or leaves that as it was. What is wanted may
-- change, and nothing else does.
theorem exists_note_eq (trail : Trail) (pos : Nat) (wanted : Wanted) :
    ∃ furthest list, trail.note pos wanted = { trail with furthest := furthest, wanted := list } ∧
      (furthest = some pos ∨ furthest = trail.furthest) := by
  unfold note
  split
  · exact ⟨_, _, rfl, .inl rfl⟩
  · split
    · exact ⟨_, _, rfl, .inr rfl⟩
    · split
      · split
        · exact ⟨_, _, rfl, .inr rfl⟩
        · exact ⟨_, _, rfl, .inr rfl⟩
      · exact ⟨_, _, rfl, .inl rfl⟩

@[simp] theorem note_memo (pos : Nat) (wanted : Wanted) :
    (trail.note pos wanted).memo = trail.memo := by
  obtain ⟨_, _, hnote, -⟩ := trail.exists_note_eq pos wanted
  rw [hnote]

theorem note_tooDeep (pos : Nat) (wanted : Wanted) :
    (trail.note pos wanted).tooDeep = trail.tooDeep := by
  obtain ⟨_, _, hnote, -⟩ := trail.exists_note_eq pos wanted
  rw [hnote]

theorem note_depth (pos : Nat) (wanted : Wanted) :
    (trail.note pos wanted).depth = trail.depth := by
  obtain ⟨_, _, hnote, -⟩ := trail.exists_note_eq pos wanted
  rw [hnote]

theorem note_furthest {pos at' : Nat} {wanted : Wanted}
    (h : (trail.note pos wanted).furthest = some at') : at' = pos ∨ trail.furthest = some at' := by
  obtain ⟨furthest, _, hnote, hnew | hold⟩ := trail.exists_note_eq pos wanted
  · rw [hnote] at h
    exact .inl (Option.some.inj (h.symm.trans hnew))
  · rw [hnote] at h
    exact .inr (hold.symm.trans h)

theorem Keeps.note (h : trail.Keeps known) (pos : Nat) (wanted : Wanted) :
    (trail.note pos wanted).Keeps known := by
  simpa only [Keeps, note_memo] using h

theorem Keeps.fresh (h : trail.Keeps known) : trail.fresh.Keeps known := h

-- A new entry displaces the one of its own position and strength and no other.
theorem Keeps.insert (h : trail.Keeps known) (pos least : Nat) (entry : Option (Expr × Nat))
    (hentry : ∀ expr stop, entry = some (expr, stop) → known pos least expr stop) :
    ({ trail with memo := trail.memo.insert (pos, least) entry } : Trail).Keeps known := by
  intro at' least' expr stop hget
  simp only [Std.TreeMap.getElem?_insert, compareKeys_eq_iff, Prod.mk.injEq] at hget
  split at hget
  · next hkey =>
    obtain ⟨rfl, rfl⟩ := hkey
    exact hentry expr stop (Option.some.inj hget)
  · exact h at' least' expr stop hget

end Trail

namespace Reply

variable {α β : Type}

def Meets (known : Recall) (post : α → Nat → Prop) : Reply α → Prop
  | done value pos trail => trail.Keeps known ∧ post value pos
  | stuck _ trail => trail.Keeps known

end Reply

namespace Rule

variable {α β σ : Type} {known : Recall} {tape : Tape} {pos : Nat} {P : α → Nat → Prop}

-- If what is remembered so far is as expected, the rule leaves only such expressions behind, and
-- what it is done with satisfies the postcondition.
def Ensures (known : Recall) (tape : Tape) (pos : Nat) (rule : Rule α) (post : α → Nat → Prop) :
    Prop :=
  ∀ trail, trail.Keeps known → (rule tape pos trail).Meets known post

namespace Ensures

theorem mono {rule : Rule α} {Q : α → Nat → Prop} (h : Ensures known tape pos rule P)
    (himp : ∀ value stop, P value stop → Q value stop) :
    Ensures known tape pos rule Q := by
  intro trail hkeeps
  have hrule := h trail hkeeps
  cases hreply : rule tape pos trail with
  | done value stop rest =>
      rw [hreply] at hrule
      exact ⟨hrule.1, himp value stop hrule.2⟩
  | stuck stop rest =>
      rw [hreply] at hrule
      exact hrule

theorem bind {rule : Rule α} {next : α → Rule β} {Q : β → Nat → Prop}
    (h : Ensures known tape pos rule P)
    (hnext : ∀ value mid, P value mid → Ensures known tape mid (next value) Q) :
    Ensures known tape pos (rule >>= next) Q := by
  intro trail hkeeps
  have hrule := h trail hkeeps
  change (Rule.bind rule next tape pos trail).Meets known Q
  unfold Rule.bind
  cases hreply : rule tape pos trail with
  | done value mid rest =>
      rw [hreply] at hrule
      exact hnext value mid hrule.2 rest hrule.1
  | stuck mid rest =>
      rw [hreply] at hrule
      exact hrule

theorem pure_iff {value : α} :
    Ensures known tape pos (pure value : Rule α) P ↔ P value pos := by
  constructor
  · intro h
    exact (h {} Trail.keeps_empty).2
  · intro h trail hkeeps
    exact ⟨hkeeps, h⟩

theorem look_bind {view : Tape → Nat → α} {next : α → Rule β} {Q : β → Nat → Prop} :
    Ensures known tape pos (look view >>= next) Q ↔
      Ensures known tape pos (next (view tape pos)) Q := Iff.rfl

theorem peek_bind {next : Kind → Rule β} {Q : β → Nat → Prop} :
    Ensures known tape pos (peek >>= next) Q ↔
      Ensures known tape pos (next (tape.kind pos)) Q := Iff.rfl

theorem peekAt_bind {ahead : Nat} {next : Kind → Rule β} {Q : β → Nat → Prop} :
    Ensures known tape pos (peekAt ahead >>= next) Q ↔
      Ensures known tape pos (next (tape.kind (pos + ahead))) Q := Iff.rfl

theorem position_bind {next : Nat → Rule β} {Q : β → Nat → Prop} :
    Ensures known tape pos (position >>= next) Q ↔
      Ensures known tape pos (next pos) Q := Iff.rfl

theorem spanFrom_bind {first : Nat} {next : Span → Rule β} {Q : β → Nat → Prop} :
    Ensures known tape pos (spanFrom first >>= next) Q ↔
      Ensures known tape pos (next (tape.span first pos)) Q := Iff.rfl

theorem advance_bind {next : Mark → Rule β} {Q : β → Nat → Prop} :
    Ensures known tape pos (advance >>= next) Q ↔
      Ensures known tape (tape.next pos) (next (tape.mark pos)) Q := Iff.rfl

theorem miss (wanted : Wanted) : Ensures known tape pos (Rule.miss wanted) P := by
  intro trail hkeeps
  exact hkeeps.note pos wanted

theorem refuse : Ensures known tape pos (Rule.refuse : Rule α) P := by
  intro trail hkeeps
  exact hkeeps

theorem expect_bind {kind : Kind} {next : Mark → Rule β} {Q : β → Nat → Prop}
    (h : tape.kind pos = kind →
      Ensures known tape (tape.next pos) (next (tape.mark pos)) Q) :
    Ensures known tape pos (expect kind >>= next) Q := by
  refine bind (P := fun mark mid => mark = tape.mark pos ∧ mid = tape.next pos ∧
    tape.kind pos = kind) ?_ ?_
  · rw [expect, peek_bind]
    split
    · next hkind =>
      intro trail hkeeps
      exact ⟨hkeeps, rfl, rfl, hkind⟩
    · exact miss _
  · rintro mark mid ⟨rfl, rfl, hkind⟩
    exact h hkind

theorem eat (kind : Kind) :
    Ensures known tape pos (Rule.eat kind) fun taken mid =>
      if taken then tape.kind pos = kind ∧ mid = tape.next pos
      else tape.kind pos ≠ kind ∧ mid = pos := by
  rw [Rule.eat, peek_bind]
  split
  · next hkind => exact advance_bind.2 (pure_iff.2 ⟨hkind, rfl⟩)
  · next hkind => exact pure_iff.2 ⟨hkind, rfl⟩

theorem eat_bind {kind : Kind} {next : Bool → Rule β} {Q : β → Nat → Prop}
    (htake : tape.kind pos = kind → Ensures known tape (tape.next pos) (next true) Q)
    (hleave : tape.kind pos ≠ kind → Ensures known tape pos (next false) Q) :
    Ensures known tape pos (Rule.eat kind >>= next) Q := by
  refine bind (eat kind) ?_
  rintro (_ | _) mid ⟨hkind, rfl⟩
  · exact hleave hkind
  · exact htake hkind

-- An attempt that fails gives nothing and leaves the position as it was.
theorem attempt {rule : Rule α} {Q : Option α → Nat → Prop}
    (h : Ensures known tape pos rule fun value stop => Q (some value) stop)
    (hnone : Q none pos) : Ensures known tape pos (Rule.attempt rule) Q := by
  intro trail hkeeps
  have hrule := h trail hkeeps
  unfold Rule.attempt
  cases hreply : rule tape pos trail with
  | done value stop rest =>
      rw [hreply] at hrule
      exact hrule
  | stuck stop rest =>
      rw [hreply] at hrule
      exact ⟨hrule, hnone⟩

theorem firstOf {rules : List (Rule α)}
    (h : ∀ rule ∈ rules, Ensures known tape pos rule P) :
    Ensures known tape pos (Rule.firstOf rules) P := by
  induction rules with
  | nil => exact refuse
  | cons rule rest ih =>
      cases rest with
      | nil => exact h rule List.mem_cons_self
      | cons other rest =>
          refine bind (attempt (Q := fun found stop =>
            (found = none → stop = pos) ∧ ∀ value, found = some value → P value stop)
            ?_ ⟨fun _ => rfl, by simp⟩) ?_
          · refine (h rule List.mem_cons_self).mono ?_
            intro value stop hpost
            exact ⟨by simp, by rintro _ ⟨⟩; exact hpost⟩
          · rintro (_ | value) mid ⟨hnone, hsome⟩
            · rw [hnone rfl]
              exact ih fun rule hrule => h rule (List.mem_cons_of_mem _ hrule)
            · exact pure_iff.2 (hsome value rfl)

-- What one step keeps, and what holds when a step declines, holds after any number of steps.
theorem iterate {step : σ → Rule (Option σ)} {I : σ → Nat → Prop}
    (hstep : ∀ state pos, I state pos → Ensures known tape pos (step state)
      fun next stop => I (next.getD state) stop)
    (fuel : Nat) (state : σ) (pos : Nat) (h : I state pos) :
    Ensures known tape pos (Rule.iterate step fuel state) I := by
  induction fuel generalizing state pos with
  | zero => exact pure_iff.2 h
  | succ fuel ih =>
      refine bind (hstep state pos h) ?_
      rintro (_ | next) mid hinv
      · exact pure_iff.2 hinv
      · exact ih next mid hinv

theorem repeatStep {step : σ → Rule (Option σ)} {I : σ → Nat → Prop} {state : σ}
    (hstep : ∀ state pos, I state pos → Ensures known tape pos (step state)
      fun next stop => I (next.getD state) stop)
    (h : I state pos) : Ensures known tape pos (Rule.repeatStep step state) I :=
  look_bind.2 (iterate hstep _ state pos h)

theorem whileShallow {rule : Rule α} (h : Ensures known tape pos rule P) :
    Ensures known tape pos (Grammar.whileShallow rule) P := by
  intro trail hkeeps
  unfold Grammar.whileShallow
  split
  · exact hkeeps
  · exact h trail hkeeps

theorem sink : Ensures known tape pos (Grammar.sink : Rule α) P := by
  intro trail hkeeps
  exact hkeeps

-- What is remembered is as expected, so an answer from memory is as good as a fresh one.
theorem remembered {least : Nat} {rule : Rule Expr}
    (h : Ensures known tape pos rule (known pos least)) :
    Ensures known tape pos (Grammar.remembered least rule) (known pos least) := by
  intro trail hkeeps
  unfold Grammar.remembered
  split
  · next expr stop hget => exact ⟨hkeeps, hkeeps pos least expr stop hget⟩
  · exact hkeeps
  · exact h trail hkeeps

theorem record {least : Nat} {rule : Rule Expr}
    (h : Ensures known tape pos rule (known pos least)) :
    Ensures known tape pos (Grammar.record least rule) (known pos least) := by
  intro trail hkeeps
  have hrule := h trail hkeeps
  unfold Grammar.record
  cases hreply : rule tape pos trail with
  | done expr stop rest =>
      rw [hreply] at hrule
      refine ⟨hrule.1.insert pos least _ ?_, hrule.2⟩
      rintro _ _ ⟨⟩
      exact hrule.2
  | stuck stop rest =>
      rw [hreply] at hrule
      exact hrule.insert pos least none (by simp)

end Ensures

end Rule

end SearchPipeline.Grammar
