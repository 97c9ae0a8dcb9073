import SearchPipeline.Proofs.Token.Renumbering

namespace SearchPipeline.Scan

open Text

variable {previous : Option Char} {offset start : Nat} {c : Char} {cs more rest behind : List Char}
  {kind : Kind} {found front : List Token} {solid : Solid}

-- A token stays what it is when a line break follows the text. Only a blank at the very end goes on.
theorem lexeme_before_break (h : lexeme previous c (more ++ rest) = ⟨.ok kind, more.length⟩)
    (hrest : isBlank c = true → rest ≠ []) (behind : List Char) :
    lexeme previous c (more ++ (rest ++ '\n' :: behind)) = ⟨.ok kind, more.length⟩ := by
  by_cases hblank : isBlank c = true
  · obtain ⟨d, rest, rfl⟩ := List.exists_cons_of_ne_nil (hrest hblank)
    rw [lexeme_of_blank hblank, Lexeme.mk.injEq] at h ⊢
    obtain ⟨hall, hstop⟩ := classLength_append_iff.1 h.2
    exact ⟨h.1, classLength_append_iff.2 ⟨hall, hstop⟩⟩
  rw [Bool.not_eq_true] at hblank
  have htight : Tight c (more ++ (rest ++ '\n' :: behind)) (more ++ rest) := by
    rw [← List.append_assoc]
    exact Tight.of_blank (.inr rfl) (more ++ rest)
  have hline : headIs (· != '\n') rest = false →
      headIs (· != '\n') (rest ++ '\n' :: behind) = false := by
    cases rest with
    | nil => exact fun _ => rfl
    | cons d rest => exact id
  cases hcomment : comment? previous c (more ++ rest) with
  | some comment =>
      rw [← lexeme_of_comment hblank hcomment, h] at hcomment
      exact lexeme_of_comment hblank (comment?_append hcomment hline rfl)
  | none =>
      have hnone : comment? previous c (more ++ (rest ++ '\n' :: behind)) = none :=
        (htight.loose.comment_none_iff rfl).1 hcomment
      cases hquoted : quoted? c (more ++ rest) with
      | some quoted =>
          rw [← lexeme_of_quoted hblank hcomment hquoted, h] at hquoted
          exact lexeme_of_quoted hblank hnone (quoted?_append _ hquoted).1
      | none =>
          have hquoted' : quoted? c (more ++ (rest ++ '\n' :: behind)) = none :=
            quoted?_eq_none.2 (quoted?_eq_none.1 hquoted)
          rw [← htight.lexeme_eq rfl hblank hnone hquoted', h]

-- The first token of a text is known, so the others are those of the text behind it.
theorem scans_cons_iff (h : lexeme previous c (more ++ rest) = ⟨.ok kind, more.length⟩) :
    Scans previous offset (c :: (more ++ rest)) found ↔ ∃ tokens,
      found = ⟨kind, String.ofList (c :: more), offset⟩ :: tokens ∧
        Scans (some (lastOf c more)) (offset + byteLength (c :: more)) rest tokens := by
  constructor
  · generalize hcs : c :: (more ++ rest) = cs
    intro hscans
    cases hscans with
    | finish => cases hcs
    | @token _ _ d more' rest' kind' tokens hlexeme hrest =>
        obtain ⟨rfl, htext⟩ := List.cons.inj hcs
        rw [← htext, h, Lexeme.mk.injEq, Except.ok.injEq] at hlexeme
        obtain ⟨rfl, hlength⟩ := hlexeme
        obtain ⟨rfl, rfl⟩ := List.append_inj htext hlength
        exact ⟨tokens, rfl, hrest⟩
  · rintro ⟨tokens, rfl, hrest⟩
    exact .token h hrest

-- The tokens of a text that a line break follows, up to the break: it is a blank, or makes the blank
-- at the end longer.
inductive Breaks : List Token → List Token → Prop where
  | finish {start start' : Nat} : Breaks [⟨.finish, "", start⟩] [⟨.blank, "\n", start'⟩]
  | blank {text text' : String} {start start' stop : Nat} :
      Breaks [⟨.blank, text, start⟩, ⟨.finish, "", stop⟩] [⟨.blank, text', start'⟩]
  | same {token : Token} {tokens front : List Token} : Breaks tokens front →
      Breaks (token :: tokens) (token :: front)

-- The tokens behind the break are those of the text behind it.
theorem Scans.breaks (h : Scans previous offset cs found) (hbehind : headIs isBlank behind = false) :
    ∃ front stop, Breaks found front ∧ ∀ all, Scans previous offset (cs ++ '\n' :: behind) all ↔
      ∃ later, all = front ++ later ∧ Scans (some '\n') stop behind later := by
  induction h with
  | @finish previous offset =>
      have hblank : lexeme previous '\n' ([] ++ behind) = ⟨.ok .blank, 0⟩ := by
        rw [lexeme_of_blank (by decide)]
        have hlength : classLength isBlank ([] ++ behind) = ([] : List Char).length :=
          classLength_append_iff.2 ⟨by simp, hbehind⟩
        exact congrArg (Lexeme.mk _) hlength
      exact ⟨[⟨.blank, "\n", offset⟩], _, .finish, fun all => scans_cons_iff hblank⟩
  | @token previous offset c more rest kind tokens hlexeme hrest ih =>
      by_cases hend : isBlank c = true ∧ rest = []
      · obtain ⟨hblank, rfl⟩ := hend
        cases hrest
        rw [lexeme_of_blank hblank, Lexeme.mk.injEq] at hlexeme
        obtain ⟨hkind, hlength⟩ := hlexeme
        cases hkind
        have hlonger : lexeme previous c (more ++ ['\n'] ++ behind) =
            ⟨.ok .blank, (more ++ ['\n']).length⟩ := by
          rw [lexeme_of_blank hblank]
          refine congrArg (Lexeme.mk _) (classLength_append_iff.2 ⟨fun d hd => ?_, hbehind⟩)
          rcases List.mem_append.1 hd with hd | hd
          · exact (classLength_append_iff.1 hlength).1 d hd
          · rw [List.mem_singleton.1 hd]
            decide
        refine ⟨[⟨.blank, String.ofList (c :: (more ++ ['\n'])), offset⟩],
          offset + byteLength (c :: (more ++ ['\n'])), .blank, fun all => ?_⟩
        have hiff := @scans_cons_iff previous offset c _ _ _ all hlonger
        rw [lastOf_append c more (List.cons_ne_nil '\n' []), List.append_assoc] at hiff
        rw [List.append_nil]
        exact hiff
      · have hopen : isBlank c = true → rest ≠ [] := fun hblank hnil => hend ⟨hblank, hnil⟩
        obtain ⟨front, stop, hbreaks, hiff⟩ := ih
        refine ⟨_ :: front, stop, .same hbreaks, fun all => ?_⟩
        rw [List.cons_append, List.append_assoc,
          scans_cons_iff (lexeme_before_break hlexeme hopen behind)]
        simp only [hiff]
        constructor
        · rintro ⟨_, rfl, later, rfl, hlater⟩
          exact ⟨later, rfl, hlater⟩
        · rintro ⟨later, rfl, hlater⟩
          exact ⟨_, rfl, later, rfl, hlater⟩

-- Where a text begins plays no part in what its tokens are.
theorem Scans.moved (h : Scans previous offset cs found) (start : Nat) :
    ∃ moved, Scans previous start cs moved ∧ ∀ index, solids index moved = solids index found := by
  induction h generalizing start with
  | finish => exact ⟨_, .finish, fun _ => rfl⟩
  | @token previous offset c more rest kind tokens hlexeme _ ih =>
      obtain ⟨moved, hscans, hsolids⟩ := ih (start + byteLength (c :: more))
      refine ⟨_, .token hlexeme hscans, fun index => ?_⟩
      simp only [solids, hsolids]
      rfl

namespace Breaks

-- The significant tokens are the same up to the end, and the break stands before it.
theorem solids_eq (h : Breaks found front) (offset : Nat) :
    solids offset found = solids offset front ++ [⟨.finish, "", offset + found.length - 1⟩] := by
  induction h generalizing offset with
  | finish => simp [solids, Token.isTrivia, Kind.isTrivia]
  | blank => simp [solids, Token.isTrivia, Kind.isTrivia]
  | @same token tokens front hbreaks ih =>
      have hlength : offset + 1 + tokens.length - 1 = offset + (token :: tokens).length - 1 := by
        simp only [List.length_cons]
        omega
      simp only [solids, ih, hlength]
      split <;> rfl

theorem length_le (h : Breaks found front) : front.length ≤ found.length := by
  induction h with
  | finish => exact Nat.le_refl _
  | blank => exact Nat.le_succ _
  | same _ ih => exact Nat.succ_le_succ ih

theorem length_le_succ (h : Breaks found front) : found.length ≤ front.length + 1 := by
  induction h with
  | finish => exact Nat.le_succ _
  | blank => exact Nat.le_refl _
  | same _ ih => exact Nat.succ_le_succ ih

theorem index_lt (h : Breaks found front) (offset : Nat) (hsolid : solid ∈ solids offset front) :
    solid.index + 1 < offset + front.length := by
  induction h generalizing offset with
  | finish => cases hsolid
  | blank => cases hsolid
  | @same token tokens front hbreaks ih =>
      have hpos : 0 < front.length := by cases hbreaks <;> simp
      simp only [List.length_cons]
      simp only [solids] at hsolid
      split at hsolid
      · have := ih _ hsolid
        omega
      · rcases List.mem_cons.1 hsolid with rfl | hsolid
        · simp only
          omega
        · have := ih _ hsolid
          omega

end Breaks

-- The same significant token, further on.
def Solid.move (distance : Nat) (solid : Solid) : Solid := { solid with index := solid.index + distance }

theorem solids_move (offset distance : Nat) (tokens : List Token) :
    solids (offset + distance) tokens = (solids offset tokens).map (·.move distance) := by
  induction tokens generalizing offset with
  | nil => rfl
  | cons token tokens ih =>
      rw [solids, solids, Nat.add_right_comm, ih]
      split <;> rfl

-- The second list goes on behind the first one and a break, with a `|` and the tokens behind it. The
-- latter are numbered from the `|` on.
structure Continues (tokens all front : List Token) (behind : List Solid) : Prop where
  breaks : Breaks tokens front
  solids : solids 0 all = solids 0 front ++ (⟨.pipe, "|", 0⟩ :: behind).map (·.move front.length)

-- Behind a line break, a `|` is a token.
theorem scans_pipe_iff : Scans (some '\n') offset ('|' :: ' ' :: cs) found ↔ ∃ tokens,
    found = ⟨.pipe, "|", offset⟩ :: tokens ∧ Scans (some '|') (offset + 1) (' ' :: cs) tokens := by
  have hpipe : lexeme (some '\n') '|' ([] ++ ' ' :: cs) = ⟨.ok .pipe, ([] : List Char).length⟩ := rfl
  exact scans_cons_iff hpipe

theorem Breaks.continues (h : Breaks found front) (start : Nat) (later : List Token) :
    Continues found (front ++ ⟨.pipe, "|", start⟩ :: later) front (solids 1 later) := by
  refine ⟨h, ?_⟩
  rw [solids_append, solids_move]
  rfl

-- What goes on behind one text goes on behind every other text that is scanned without a flaw.
theorem tokens_continued {source other rest : String} {tokens others whole : List Token}
    (h : Scan.tokens source = .ok tokens) (hother : Scan.tokens other = .ok others)
    (hwhole : Scan.tokens (other ++ "\n| " ++ rest) = .ok whole) :
    ∃ all front front' behind, Scan.tokens (source ++ "\n| " ++ rest) = .ok all ∧
      Continues tokens all front behind ∧ Continues others whole front' behind := by
  have htext : ∀ text : String, (text ++ "\n| " ++ rest).toList =
      text.toList ++ '\n' :: '|' :: ' ' :: rest.toList := by
    intro text
    simp [String.toList_append]
  rw [tokens_eq_ok_iff] at h hother hwhole
  rw [htext] at hwhole
  have hpipe : headIs isBlank ('|' :: ' ' :: rest.toList) = false := rfl
  obtain ⟨front, stop, hbreaks, hiff⟩ := h.breaks hpipe
  obtain ⟨front', stop', hbreaks', hiff'⟩ := hother.breaks hpipe
  obtain ⟨_, rfl, hscans⟩ := (hiff' whole).1 hwhole
  obtain ⟨later, rfl, hlater⟩ := scans_pipe_iff.1 hscans
  obtain ⟨moved, hmoved, hsolids⟩ := hlater.moved (stop + 1)
  refine ⟨front ++ ⟨.pipe, "|", stop⟩ :: moved, front, front', solids 1 later, ?_, ?_,
    hbreaks'.continues stop' later⟩
  · rw [tokens_eq_ok_iff, htext]
    exact (hiff _).2 ⟨_, rfl, scans_pipe_iff.2 ⟨moved, rfl, hmoved⟩⟩
  · rw [← hsolids]
    exact hbreaks.continues stop moved

end SearchPipeline.Scan
