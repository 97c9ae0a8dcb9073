import Mathlib.Data.List.Basic
import SearchPipeline.Rename.Splice

namespace SearchPipeline

namespace Span

variable {a b : Span}

theorem overlaps_iff : a.overlaps b = true ↔ a.start < b.stop ∧ b.start < a.stop := by
  simp [overlaps]

theorem overlaps_eq_false_iff : a.overlaps b = false ↔ b.stop ≤ a.start ∨ a.stop ≤ b.start := by
  rw [← Bool.not_eq_true, overlaps_iff]
  omega

theorem overlaps_comm (a b : Span) : a.overlaps b = b.overlaps a := Bool.and_comm ..

end Span

namespace Splice

-- Replacements in rising order that do not overlap, inside the list of tokens.
structure Rising (tokens : List Token) (replacements : List Replacement) : Prop where
  order : replacements.Pairwise fun a b => a.span.stop ≤ b.span.start
  inside : ∀ one ∈ replacements, one.span.start < one.span.stop ∧ one.span.stop ≤ tokens.length

-- A span that may be registered beside others.
structure Fits (tokens : List Token) (replacements : List Replacement) (span : Span) : Prop where
  nonempty : span.start < span.stop
  inside : span.stop ≤ tokens.length
  apart : ∀ old ∈ replacements, old.span.overlaps span = false

variable {tokens : List Token} {replacements : List Replacement} {new old : Replacement}
  {span : Span}

theorem not_fits_iff : ¬Fits tokens replacements span ↔ span.stop ≤ span.start ∨
    tokens.length < span.stop ∨ ∃ old ∈ replacements, old.span.overlaps span = true := by
  constructor
  · intro hnot
    by_contra hnone
    simp only [not_or, Nat.not_le, Nat.not_lt, not_exists, not_and, Bool.not_eq_true] at hnone
    obtain ⟨hnonempty, hinside, hapart⟩ := hnone
    apply hnot
    exact ⟨hnonempty, hinside, hapart⟩
  · rintro (hempty | houtside | ⟨old, hold, hoverlaps⟩) ⟨hnonempty, hinside, hapart⟩
    · omega
    · omega
    · rw [hapart old hold] at hoverlaps
      cases hoverlaps

-- The span that is looked at stands for all the others.
theorem Rising.overlaps_last (h : Rising tokens replacements) (hold : old ∈ replacements)
    (hoverlaps : old.span.overlaps span = true) :
    ∃ last, lastBefore? replacements span.stop = some last ∧ last.span.overlaps span = true := by
  obtain ⟨hstart, hstop⟩ := Span.overlaps_iff.1 hoverlaps
  have hmem : old ∈ replacements.filter (·.span.start < span.stop) := by
    simpa using ⟨hold, hstart⟩
  cases hlast : lastBefore? replacements span.stop with
  | none =>
      rw [lastBefore?, List.getLast?_eq_none_iff] at hlast
      rw [hlast] at hmem
      cases hmem
  | some last =>
      refine ⟨last, rfl, ?_⟩
      obtain ⟨front, hfront⟩ := List.getLast?_eq_some_iff.1 hlast
      have horder := h.order.sublist (List.filter_sublist (p := (·.span.start < span.stop)))
      have hlastMem : last ∈ replacements.filter (·.span.start < span.stop) := by simp [hfront]
      rw [hfront] at hmem horder
      rcases List.mem_append.1 hmem with hbefore | hsame
      · have hbehind := (List.pairwise_append.1 horder).2.2 old hbefore last (by simp)
        obtain ⟨hregistered, hbound⟩ := List.mem_filter.1 hlastMem
        have hnonempty := (h.inside last hregistered).1
        rw [decide_eq_true_eq] at hbound
        apply Span.overlaps_iff.2
        omega
      · cases List.mem_singleton.1 hsame
        exact hoverlaps

theorem replace_of_fits (h : Fits tokens replacements new.span) :
    replace ⟨tokens, replacements⟩ new.span new.text = .ok ⟨tokens, insert new replacements⟩ := by
  rw [replace, if_pos ⟨h.nonempty, h.inside⟩]
  cases hlast : lastBefore? replacements new.span.stop with
  | none => rfl
  | some last =>
      have hmem : last ∈ replacements := List.mem_of_mem_filter (List.mem_of_getLast? hlast)
      simp only [h.apart last hmem, Bool.false_eq_true, if_false]

theorem Rising.replace_of_not_fits (h : Rising tokens replacements)
    (hnot : ¬Fits tokens replacements span) (text : String) :
    ∃ error, replace ⟨tokens, replacements⟩ span text = .error error := by
  rw [replace]
  by_cases hrange : span.start < span.stop ∧ span.stop ≤ tokens.length
  · rw [if_pos hrange]
    obtain ⟨old, hold, hoverlaps⟩ : ∃ old ∈ replacements, old.span.overlaps span = true := by
      rcases not_fits_iff.1 hnot with hempty | houtside | hover
      · omega
      · omega
      · exact hover
    obtain ⟨last, hlast, hover⟩ := h.overlaps_last hold hoverlaps
    simp only [hlast, hover, if_true]
    exact ⟨_, rfl⟩
  · rw [if_neg hrange]
    exact ⟨_, rfl⟩

theorem Rising.replace_error_iff (h : Rising tokens replacements) (text : String) :
    (∃ error, replace ⟨tokens, replacements⟩ span text = .error error) ↔
      ¬Fits tokens replacements span := by
  constructor
  · rintro ⟨error, herror⟩ hfits
    have hok := @replace_of_fits _ _ ⟨span, text⟩ hfits
    rw [herror] at hok
    cases hok
  · intro hnot
    exact h.replace_of_not_fits hnot text

-- Where a span fits, no other starts at the same token.
theorem Fits.start_ne (h : Fits tokens replacements span) (hin : Rising tokens replacements)
    (hold : old ∈ replacements) : old.span.start ≠ span.start := by
  have hapart := Span.overlaps_eq_false_iff.1 (h.apart old hold)
  have hinside := hin.inside old hold
  have hnonempty := h.nonempty
  omega

theorem insert_perm (h : ∀ old ∈ replacements, old.span.start ≠ new.span.start) :
    (insert new replacements).Perm (new :: replacements) := by
  induction replacements with
  | nil => exact List.Perm.refl _
  | cons first rest ih =>
      have hfirst := h first List.mem_cons_self
      rw [insert]
      by_cases hlt : new.span.start < first.span.start
      · rw [if_pos hlt]
      · rw [if_neg hlt, if_neg (Ne.symm hfirst)]
        have hrest := ih fun old hold => h old (List.mem_cons_of_mem _ hold)
        exact (hrest.cons first).trans (List.Perm.swap new first rest)

-- What is registered stays in rising order.
theorem Rising.insert (h : Rising tokens replacements) (hfits : Fits tokens replacements new.span) :
    Rising tokens (insert new replacements) := by
  have hperm := insert_perm fun old hold => hfits.start_ne h hold
  refine ⟨?_, fun one hone => ?_⟩
  · clear hperm
    induction replacements with
    | nil => exact List.pairwise_singleton _ _
    | cons first rest ih =>
        obtain ⟨hbehind, horder⟩ := List.pairwise_cons.1 h.order
        have hfirst := h.inside first List.mem_cons_self
        have hapart := Span.overlaps_eq_false_iff.1 (hfits.apart first List.mem_cons_self)
        have hnonempty := hfits.nonempty
        rw [Splice.insert]
        by_cases hlt : new.span.start < first.span.start
        · rw [if_pos hlt]
          refine List.Pairwise.cons (fun later hlater => ?_) h.order
          rcases List.mem_cons.1 hlater with rfl | hlater
          · omega
          · have := hbehind later hlater
            omega
        · rw [if_neg hlt, if_neg (Ne.symm (hfits.start_ne h List.mem_cons_self))]
          have hrest : Rising tokens rest :=
            ⟨horder, fun one hone => h.inside one (List.mem_cons_of_mem _ hone)⟩
          have hfitsRest : Fits tokens rest new.span := ⟨hnonempty, hfits.inside,
            fun old hold => hfits.apart old (List.mem_cons_of_mem _ hold)⟩
          refine List.Pairwise.cons (fun later hlater => ?_) (ih hrest hfitsRest)
          have hmem := (insert_perm fun old hold => hfitsRest.start_ne hrest hold).mem_iff.1 hlater
          rcases List.mem_cons.1 hmem with rfl | hmem
          · omega
          · exact hbehind later hmem
  · rcases List.mem_cons.1 (hperm.mem_iff.1 hone) with rfl | hold
    · exact ⟨hfits.nonempty, hfits.inside⟩
    · exact h.inside one hold

theorem Rising.starts_rise (h : Rising tokens replacements) :
    replacements.Pairwise fun a b => a.span.start < b.span.start :=
  h.order.imp_of_mem fun ha _ hle => Nat.lt_of_lt_of_le (h.inside _ ha).1 hle

theorem Rising.apart (h : Rising tokens replacements) :
    replacements.Pairwise fun a b => a.span.overlaps b.span = false :=
  h.order.imp fun hle => Span.overlaps_eq_false_iff.2 (.inr hle)

-- A replacement that is refused leaves the splice as it was.
def offer (splice : Splice) (new : Replacement) : Splice :=
  match splice.replace new.span new.text with
  | .ok next => next
  | .error _ => splice

-- The splice after any replacements have been offered, refused ones included.
def offered (tokens : List Token) (offers : List Replacement) : Splice :=
  offers.foldl offer { tokens }

theorem offer_of_fits (h : Fits tokens replacements new.span) :
    offer ⟨tokens, replacements⟩ new = ⟨tokens, insert new replacements⟩ := by
  rw [offer, replace_of_fits h]

theorem Rising.offer_of_not_fits (h : Rising tokens replacements)
    (hnot : ¬Fits tokens replacements new.span) :
    offer ⟨tokens, replacements⟩ new = ⟨tokens, replacements⟩ := by
  obtain ⟨error, herror⟩ := h.replace_of_not_fits hnot new.text
  rw [offer, herror]

theorem Rising.offer (h : Rising tokens replacements) (new : Replacement) :
    ∃ next, Splice.offer ⟨tokens, replacements⟩ new = ⟨tokens, next⟩ ∧ Rising tokens next := by
  by_cases hfits : Fits tokens replacements new.span
  · exact ⟨_, offer_of_fits hfits, h.insert hfits⟩
  · exact ⟨_, h.offer_of_not_fits hfits, h⟩

theorem Rising.foldl_offer (h : Rising tokens replacements) (offers : List Replacement) :
    ∃ next, offers.foldl Splice.offer ⟨tokens, replacements⟩ = ⟨tokens, next⟩ ∧
      Rising tokens next := by
  induction offers generalizing replacements with
  | nil => exact ⟨replacements, rfl, h⟩
  | cons new rest ih =>
      obtain ⟨next, hnext, hrising⟩ := h.offer new
      rw [List.foldl_cons, hnext]
      exact ih hrising

theorem rising_nil (tokens : List Token) : Rising tokens [] := ⟨.nil, by simp⟩

-- Whatever has been offered, the registered spans are not empty, lie inside the list, rise and do not
-- overlap. A further span is refused exactly if it is empty, leaves the list or overlaps any of them,
-- and one that is not refused is registered beside them.
theorem offered_registers (tokens : List Token) (offers : List Replacement) :
    (∀ one ∈ (offered tokens offers).replacements,
      one.span.start < one.span.stop ∧ one.span.stop ≤ tokens.length) ∧
    ((offered tokens offers).replacements.Pairwise fun a b => a.span.start < b.span.start) ∧
    ((offered tokens offers).replacements.Pairwise fun a b => a.span.overlaps b.span = false) ∧
    (∀ span text, (∃ error, (offered tokens offers).replace span text = .error error) ↔
      span.stop ≤ span.start ∨ tokens.length < span.stop ∨
        ∃ one ∈ (offered tokens offers).replacements, one.span.overlaps span = true) ∧
    ∀ span text next, (offered tokens offers).replace span text = .ok next →
      next.replacements.Perm (⟨span, text⟩ :: (offered tokens offers).replacements) := by
  obtain ⟨replacements, hoffered, hrising⟩ := (rising_nil tokens).foldl_offer offers
  rw [offered, hoffered]
  refine ⟨hrising.inside, hrising.starts_rise, hrising.apart, fun span text => ?_, ?_⟩
  · exact (hrising.replace_error_iff text).trans not_fits_iff
  · intro span text next hnext
    by_cases hfits : Fits tokens replacements span
    · rw [@replace_of_fits _ _ ⟨span, text⟩ hfits] at hnext
      cases hnext
      exact insert_perm fun old hold => hfits.start_ne hrising hold
    · obtain ⟨error, herror⟩ := hrising.replace_of_not_fits hfits text
      rw [herror] at hnext
      cases hnext

end Splice

end SearchPipeline
