import Mathlib.Data.List.Pairwise
import Mathlib.Data.List.Perm.Basic
import SearchPipeline.Proofs.Rename.Registration
import SearchPipeline.Token.Scan

namespace SearchPipeline

namespace Splice

-- Replacements that can be registered together.
structure Placeable (tokens : List Token) (replacements : List Replacement) : Prop where
  inside : ∀ one ∈ replacements, one.span.start < one.span.stop ∧ one.span.stop ≤ tokens.length
  apart : replacements.Pairwise fun a b => a.span.overlaps b.span = false

instance (tokens : List Token) (replacements : List Replacement) :
    Decidable (Placeable tokens replacements) :=
  decidable_of_iff
    ((∀ one ∈ replacements, one.span.start < one.span.stop ∧ one.span.stop ≤ tokens.length) ∧
      replacements.Pairwise fun a b => a.span.overlaps b.span = false)
    ⟨fun ⟨hinside, hapart⟩ => ⟨hinside, hapart⟩, fun ⟨hinside, hapart⟩ => ⟨hinside, hapart⟩⟩

-- A span holds the token at an index.
def covered (replacements : List Replacement) (index : Nat) : Bool :=
  replacements.any fun one => one.span.start ≤ index && index < one.span.stop

-- What a token contributes to the result: the text of the span that begins with it, or else its own
-- text unless a span holds it. The end of the query has no text.
def contribution (replacements : List Replacement) (index : Nat) (token : Token) : String :=
  match replacements.find? (·.span.start == index) with
  | some first => first.text
  | none => if covered replacements index || token.kind = .finish then "" else token.text

variable {tokens : List Token} {replacements others : List Replacement}

theorem Rising.placeable (h : Rising tokens replacements) : Placeable tokens replacements :=
  ⟨h.inside, h.apart⟩

-- Of two different replacements one ends before the other begins.
theorem Placeable.apart_of_ne (h : Placeable tokens replacements) {one other : Replacement}
    (hone : one ∈ replacements) (hother : other ∈ replacements) (hne : one ≠ other) :
    other.span.stop ≤ one.span.start ∨ one.span.stop ≤ other.span.start := by
  have hsymm : Std.Symm fun a b : Replacement => a.span.overlaps b.span = false :=
    ⟨fun a b hab => by rwa [Span.overlaps_comm]⟩
  exact Span.overlaps_eq_false_iff.1 (h.apart.forall hone hother hne)

section Permutations

variable (hperm : others.Perm replacements)

include hperm

theorem Placeable.perm (h : Placeable tokens replacements) : Placeable tokens others := by
  refine ⟨fun one hone => h.inside one (hperm.mem_iff.1 hone), ?_⟩
  have hsymm : ∀ {a b : Replacement}, a.span.overlaps b.span = false →
      b.span.overlaps a.span = false := fun {a b} hab => by rwa [Span.overlaps_comm]
  exact (hperm.pairwise_iff hsymm).2 h.apart

-- A token begins one span at most, so it does not matter which is looked at first.
theorem Placeable.find?_eq (h : Placeable tokens replacements) (index : Nat) :
    others.find? (·.span.start == index) = replacements.find? (·.span.start == index) := by
  have hsame : ∀ {one other : Replacement}, one ∈ replacements → other ∈ replacements →
      one.span.start = index → other.span.start = index → one = other := by
    intro one other hone hother hstart hstart'
    by_contra hne
    have hapart := h.apart_of_ne hone hother hne
    have := h.inside one hone
    have := h.inside other hother
    omega
  cases hfind : replacements.find? (·.span.start == index) with
  | none =>
      rw [List.find?_eq_none] at hfind ⊢
      exact fun one hone => hfind one (hperm.mem_iff.1 hone)
  | some first =>
      have hstart : first.span.start = index := by simpa using List.find?_some hfind
      have hmem := List.mem_of_find?_eq_some hfind
      cases hother : others.find? (·.span.start == index) with
      | none =>
          rw [List.find?_eq_none] at hother
          exact absurd hstart (by simpa using hother first (hperm.mem_iff.2 hmem))
      | some other =>
          have hstart' : other.span.start = index := by simpa using List.find?_some hother
          have hmem' := hperm.mem_iff.1 (List.mem_of_find?_eq_some hother)
          rw [hsame hmem' hmem hstart' hstart]

theorem Placeable.contribution_eq (h : Placeable tokens replacements) :
    contribution others = contribution replacements := by
  funext index token
  have hcovered : covered others index = covered replacements index := hperm.any_eq
  rw [contribution, contribution, h.find?_eq hperm, hcovered]

end Permutations

-- What a run of registrations comes to: all replacements in rising order, or a refusal.
theorem Rising.foldlM_replace_any (h : Rising tokens replacements) (rest : List Replacement) :
    (Placeable tokens (rest ++ replacements) → ∃ all, Rising tokens all ∧
      all.Perm (rest ++ replacements) ∧
      rest.foldlM (fun splice new => splice.replace new.span new.text)
        (⟨tokens, replacements⟩ : Splice) = .ok ⟨tokens, all⟩) ∧
    (¬Placeable tokens (rest ++ replacements) → ∃ error,
      rest.foldlM (fun splice new => splice.replace new.span new.text)
        (⟨tokens, replacements⟩ : Splice) = .error error) := by
  induction rest generalizing replacements with
  | nil => exact ⟨fun _ => ⟨replacements, h, List.Perm.refl _, rfl⟩, fun hnot => absurd h.placeable hnot⟩
  | cons new rest ih =>
      by_cases hfits : Fits tokens replacements new.span
      · have hperm := insert_perm fun old hold => hfits.start_ne h hold
        have hall : (rest ++ Splice.insert new replacements).Perm (new :: rest ++ replacements) :=
          (hperm.append_left rest).trans List.perm_middle
        obtain ⟨hplaceable, hnot⟩ := ih (h.insert hfits)
        rw [List.foldlM_cons, replace_of_fits hfits]
        constructor
        · intro hboth
          obtain ⟨all, hrising, hsame, hfold⟩ := hplaceable (hboth.perm hall)
          exact ⟨all, hrising, hsame.trans hall, hfold⟩
        · intro hneither
          exact hnot fun hboth => hneither (hboth.perm hall.symm)
      · obtain ⟨error, herror⟩ := h.replace_of_not_fits hfits new.text
        rw [List.foldlM_cons, herror]
        refine ⟨fun hboth => absurd ?_ hfits, fun _ => ⟨error, rfl⟩⟩
        obtain ⟨hnonempty, hinside⟩ := hboth.inside new (by simp)
        refine ⟨hnonempty, hinside, fun old hold => ?_⟩
        rw [Span.overlaps_comm]
        exact List.rel_of_pairwise_cons hboth.apart (List.mem_append_right rest hold)

-- The token at an index and the one before it belong to the same span.
def Within (replacements : List Replacement) (index : Nat) : Prop :=
  ∃ one ∈ replacements, one.span.start < index ∧ index < one.span.stop

section Places

variable {index : Nat} (h : Placeable tokens replacements)

include h

-- No span begins inside another one, and none goes on where another one ends.
theorem Placeable.start_not_within {found : Replacement} (hfound : found ∈ replacements) :
    ¬Within replacements found.span.start ∧ ¬Within replacements found.span.stop := by
  have hnonempty := (h.inside found hfound).1
  constructor
  all_goals
    rintro ⟨outer, houter, hstart, hstop⟩
    have hne : outer ≠ found := by
      rintro rfl
      omega
    have hapart := h.apart_of_ne houter hfound hne
    omega

theorem Placeable.contribution_within (hwithin : Within replacements index) (token : Token) :
    contribution replacements index token = "" := by
  have hnone : replacements.find? (·.span.start == index) = none := by
    refine List.find?_eq_none.2 fun one hone => ?_
    rw [beq_iff_eq]
    rintro rfl
    exact (h.start_not_within hone).1 hwithin
  have hcovered : covered replacements index = true := by
    obtain ⟨one, hone, hstart, hstop⟩ := hwithin
    simp only [covered, List.any_eq_true, Bool.and_eq_true, decide_eq_true_eq]
    exact ⟨one, hone, by omega, hstop⟩
  simp [contribution, hnone, hcovered]

-- The tokens that are passed over stand inside a span, and the next one does not.
theorem Placeable.join_pieces (rest : List Token) (skip : Nat)
    (hskip : ∀ at', index ≤ at' → at' < index + skip → Within replacements at')
    (hnext : ¬Within replacements (index + skip)) :
    String.join (pieces replacements skip index rest) = String.join
      ((rest.zipIdx index).map fun entry => contribution replacements entry.2 entry.1) := by
  induction rest generalizing skip index with
  | nil => rfl
  | cons token rest ih =>
      rw [List.zipIdx_cons, List.map_cons, String.join_cons]
      cases skip with
      | succ skip =>
          have hwithin := hskip index (Nat.le_refl _) (by omega)
          rw [pieces, h.contribution_within hwithin, String.empty_append]
          apply ih
          · intro at' hle hlt
            exact hskip at' (by omega) (by omega)
          · rwa [Nat.add_assoc, Nat.add_comm 1]
      | zero =>
          rw [pieces, contribution]
          cases hfind : replacements.find? (·.span.start == index) with
          | some found =>
              have hstart : found.span.start = index := by simpa using List.find?_some hfind
              have hmem := List.mem_of_find?_eq_some hfind
              have hnonempty := (h.inside found hmem).1
              simp only [String.join_cons]
              congr 1
              apply ih
              · intro at' hle hlt
                exact ⟨found, hmem, by omega, by omega⟩
              · have hbehind := (h.start_not_within hmem).2
                rwa [show index + 1 + (found.span.stop - index - 1) = found.span.stop by omega]
          | none =>
              have hstarts := List.find?_eq_none.1 hfind
              -- a span that holds the token would begin with it or hold the one before
              have hcovered : covered replacements index = false := by
                rw [covered, List.any_eq_false]
                intro one hone
                have hstart : one.span.start ≠ index := by simpa using hstarts one hone
                simp only [Bool.and_eq_true, decide_eq_true_eq, not_and]
                intro hle hbehind
                exact hnext ⟨one, hone, by omega, hbehind⟩
              simp only [String.join_cons, hcovered, Bool.false_or, decide_eq_true_eq]
              congr 1
              apply ih
              · intro at' hle hlt
                omega
              · rintro ⟨one, hone, hbefore, hbehind⟩
                have hstart : one.span.start ≠ index := by simpa using hstarts one hone
                exact hnext ⟨one, hone, by omega, by omega⟩

theorem Placeable.render_eq : render ⟨tokens, replacements⟩ = Text.trimmed
    (String.join (tokens.zipIdx.map fun entry => contribution replacements entry.2 entry.1)) := by
  have houtside : ¬Within replacements 0 := by
    rintro ⟨one, hone, hstart, hstop⟩
    omega
  rw [render, h.join_pieces tokens 0 (by omega) houtside]

end Places

-- All replacements at once, in the order in which they come, give the text that any other order gives.
theorem Placeable.replaceAll_eq (h : Placeable tokens replacements)
    (hperm : others.Perm replacements) :
    replaceAll tokens others = .ok (render ⟨tokens, replacements⟩) := by
  obtain ⟨all, hrising, hall, hfold⟩ :=
    ((rising_nil tokens).foldlM_replace_any others).1 (by simpa using h.perm hperm)
  rw [List.append_nil] at hall
  have hrender := hrising.placeable.render_eq
  rw [h.contribution_eq (hall.trans hperm), ← h.render_eq] at hrender
  simp only [replaceAll, hfold, ← hrender]
  rfl

-- Replacements that do not overlap give the same result in every order: each token contributes its
-- text or the text of its span, once. Other replacements are refused in every order.
theorem replaceAll_any_order (tokens : List Token) (replacements others : List Replacement)
    (hperm : others.Perm replacements) :
    (Placeable tokens replacements → replaceAll tokens others = .ok (Text.trimmed (String.join
      (tokens.zipIdx.map fun entry => contribution replacements entry.2 entry.1)))) ∧
    (¬Placeable tokens replacements → ∃ error, replaceAll tokens others = .error error) := by
  constructor
  · intro h
    rw [h.replaceAll_eq hperm, h.render_eq]
  · intro h
    have hnot : ¬Placeable tokens (others ++ []) := by
      rw [List.append_nil]
      exact fun hothers => h (hothers.perm hperm.symm)
    obtain ⟨error, hfold⟩ := ((rising_nil tokens).foldlM_replace_any others).2 hnot
    simp only [replaceAll, hfold]
    exact ⟨error, rfl⟩

theorem replaceAll_any_order_reversed :
    List.Perm [⟨⟨3, 4⟩, "!"⟩, ⟨⟨0, 2⟩, "x"⟩] [⟨⟨0, 2⟩, "x"⟩, (⟨⟨3, 4⟩, "!"⟩ : Replacement)] ∧
      replaceAll (Scan.tokensOf (Scan.items "a b")) [⟨⟨3, 4⟩, "!"⟩, ⟨⟨0, 2⟩, "x"⟩] = .ok "xb!" ∧
      ¬Placeable (Scan.tokensOf (Scan.items "a b")) [⟨⟨0, 2⟩, "x"⟩, ⟨⟨1, 4⟩, "!"⟩] ∧
      ∃ error, replaceAll (Scan.tokensOf (Scan.items "a b"))
        [⟨⟨1, 4⟩, "!"⟩, ⟨⟨0, 2⟩, "x"⟩] = .error error := by
  have hperm : ∀ one other : Replacement, List.Perm [other, one] [one, other] :=
    fun one other => List.Perm.swap one other []
  have hplaceable : Placeable (Scan.tokensOf (Scan.items "a b"))
      [⟨⟨0, 2⟩, "x"⟩, ⟨⟨3, 4⟩, "!"⟩] := by decide +kernel
  have hnot : ¬Placeable (Scan.tokensOf (Scan.items "a b"))
      [⟨⟨0, 2⟩, "x"⟩, ⟨⟨1, 4⟩, "!"⟩] := by decide +kernel
  refine ⟨hperm _ _, ?_, hnot, (replaceAll_any_order _ _ _ (hperm _ _)).2 hnot⟩
  rw [(replaceAll_any_order _ _ _ (hperm _ _)).1 hplaceable]
  exact congrArg Except.ok (by decide +kernel)

end Splice

end SearchPipeline
