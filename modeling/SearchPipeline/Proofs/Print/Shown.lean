import SearchPipeline.Proofs.Grammar.Alignment
import SearchPipeline.Proofs.Print.Sign

namespace SearchPipeline

open Text
open Scan (Solid Legible)

-- The significant tokens of a list of signs, with their indices from an offset on.
def Sign.solids (offset : Nat) : List Sign → List Solid
  | [] => [⟨.finish, "", offset⟩]
  | sign :: signs =>
      let index := if sign.blanks = 0 then offset else offset + 1
      ⟨sign.kind, sign.text, index⟩ :: solids (index + 1) signs

theorem Sign.length_solids (offset : Nat) (signs : List Sign) :
    (Sign.solids offset signs).length = signs.length + 1 := by
  induction signs generalizing offset with
  | nil => rfl
  | cons sign signs ih => rw [Sign.solids, List.length_cons, ih, List.length_cons]

theorem Scan.Legible.solids_tokens {signs : List Sign} {rest : List Char} (h : Legible signs rest)
    (offset start : Nat) :
    Scan.solids offset (Sign.tokens start signs) = Sign.solids offset signs := by
  induction signs generalizing offset start with
  | nil => rfl
  | cons sign signs ih =>
      obtain ⟨hlexes, hrest⟩ := h
      have hsolid : ∀ text start, (⟨sign.kind, text, start⟩ : Token).isTrivia = false :=
        fun _ _ => hlexes.solid
      have hblank : ∀ text start, (⟨.blank, text, start⟩ : Token).isTrivia = true := fun _ _ => rfl
      rw [Sign.tokens, Sign.solids]
      by_cases hblanks : sign.blanks = 0
      · simp [hblanks, Scan.solids, hsolid, ih hrest]
      · simp [hblanks, Scan.solids, hsolid, hblank, ih hrest]

theorem Sign.tokens_ended (offset : Nat) (signs : List Sign) :
    Grammar.Tape.Ended (Sign.tokens offset signs) := by
  induction signs generalizing offset with
  | nil => rfl
  | cons sign signs ih =>
      have hrest := ih (offset + byteLength sign.gap + byteLength sign.text.toList)
      obtain ⟨last, hlast, hkind⟩ := Option.map_eq_some_iff.1 hrest
      simp only [Sign.tokens, Grammar.Tape.Ended, List.getLast?_append, List.getLast?_cons, hlast,
        Option.getD_some, Option.some_or, Option.map_some, hkind]

namespace Grammar

-- A mark of the tape is the given sign.
structure Tape.ShowsSign (tape : Tape) (sign : Sign) (pos : Nat) : Prop where
  kind : tape.kind pos = sign.kind
  text : (tape.mark pos).text = sign.text
  apart : sign.blanks ≠ 0 → tape.attachedLeft pos = false
  inside : tape.kind pos ≠ .finish

-- From a position on, the marks of the tape are the given signs.
def Tape.Shows (tape : Tape) : List Sign → Nat → Prop
  | [], _ => True
  | sign :: signs, pos => tape.ShowsSign sign pos ∧ Shows tape signs (pos + 1)

namespace Tape

variable {tape : Tape} {signs others : List Sign} {pos : Nat}

theorem shows_append_iff : tape.Shows (signs ++ others) pos ↔
    tape.Shows signs pos ∧ tape.Shows others (pos + signs.length) := by
  induction signs generalizing pos with
  | nil => simp [Shows]
  | cons sign signs ih =>
      have hlength : pos + 1 + signs.length = pos + (sign :: signs).length := by
        simp only [List.length_cons]
        omega
      simp only [List.cons_append, Shows, ih, hlength, and_assoc]

theorem Shows.lt_size (h : tape.Shows signs pos) (hot : tape.Orderly) (hne : signs ≠ []) :
    pos + signs.length < tape.size := by
  induction signs generalizing pos with
  | nil => exact absurd rfl hne
  | cons sign signs ih =>
      have hpos := hot.ends pos h.1.inside
      cases signs with
      | nil => exact hpos
      | cons second signs =>
          have := ih h.2 (List.cons_ne_nil _ _)
          simp only [List.length_cons] at this ⊢
          omega

-- The induction goes along the signs; those before them are the front.
theorem shows_of_solids {front : List Solid} {offset : Nat} {final : Solid}
    (hmarks : ∀ at', (tape.mark at').solid = (front ++ Sign.solids offset signs)[at']?.getD final)
    (hinside : ∀ sign ∈ signs, sign.kind ≠ .finish)
    (hfront : ∀ last, front.getLast? = some last → last.index < offset) :
    tape.Shows signs front.length ∧ tape.kind (front.length + signs.length) = .finish := by
  have hfirst := hmarks front.length
  rw [List.getElem?_append_right (Nat.le_refl _), Nat.sub_self] at hfirst
  induction signs generalizing front offset with
  | nil => exact ⟨trivial, congrArg Solid.kind hfirst⟩
  | cons sign signs ih =>
      obtain ⟨index, hindex⟩ : ∃ index, index = if sign.blanks = 0 then offset else offset + 1 :=
        ⟨_, rfl⟩
      simp only [Sign.solids, ← hindex] at hfirst hmarks
      have hsolid : (tape.mark front.length).solid = ⟨sign.kind, sign.text, index⟩ := hfirst
      have hmarks' : ∀ at', (tape.mark at').solid = ((front ++ [⟨sign.kind, sign.text, index⟩]) ++
          Sign.solids (index + 1) signs)[at']?.getD final := by
        intro at'
        rw [List.append_assoc]
        exact hmarks at'
      have hkind : tape.kind front.length = sign.kind := congrArg Solid.kind hsolid
      have hrest := ih hmarks' (fun other hother => hinside other (List.mem_cons_of_mem _ hother))
        (fun last hlast => by
          rw [List.getLast?_concat, Option.some.injEq] at hlast
          rw [← hlast]
          exact Nat.lt_succ_self index)
        (by rw [hmarks', List.getElem?_append_right (Nat.le_refl _), Nat.sub_self])
      rw [List.length_append, List.length_singleton] at hrest
      refine ⟨⟨⟨hkind, congrArg Solid.text hsolid, fun hblanks => ?_, ?_⟩, hrest.1⟩, ?_⟩
      · have hhere : tape.index front.length = index := congrArg Solid.index hsolid
        rw [if_neg hblanks] at hindex
        rcases List.eq_nil_or_concat' front with rfl | ⟨before, last, rfl⟩
        · rfl
        · have hbehind := hfront last List.getLast?_concat
          have hbefore : tape.index before.length = last.index := by
            refine congrArg Solid.index ((hmarks before.length).trans ?_)
            simp
          rw [List.length_append, List.length_singleton] at hhere
          simp only [attachedLeft, List.length_append, List.length_singleton, Nat.add_sub_cancel,
            hhere, hbefore, Bool.and_eq_false_iff, beq_eq_false_iff_ne]
          omega
      · rw [hkind]
        exact hinside sign List.mem_cons_self
      · rw [List.length_cons, ← hrest.2]
        congr 1
        omega

-- The tape of a printed text shows what was printed, and then the end.
theorem shows_tokens (source : String) (h : Legible signs []) :
    (ofTokens source (Sign.tokens 0 signs)).Shows signs 0 ∧
      (ofTokens source (Sign.tokens 0 signs)).kind signs.length = .finish := by
  have hmarks : ∀ at', ((ofTokens source (Sign.tokens 0 signs)).mark at').solid =
      ([] ++ Sign.solids 0 signs)[at']?.getD ⟨.finish, "", (Sign.tokens 0 signs).length⟩ := by
    intro at'
    rw [List.nil_append, solid_mark source (Sign.tokens_ended 0 signs), h.solids_tokens]
  have hshows := shows_of_solids hmarks h.ne_finish (by simp)
  rwa [List.length_nil, Nat.zero_add] at hshows

end Tape

end Grammar

end SearchPipeline
