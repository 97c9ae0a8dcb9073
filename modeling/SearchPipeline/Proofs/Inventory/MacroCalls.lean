import SearchPipeline.Proofs.Inventory.Evaluated
import SearchPipeline.Proofs.Token.Bytes

namespace SearchPipeline

open Text

namespace MacroCall

variable {cs : List Char} {call : MacroCall} {count skip : Nat}

-- A call runs to a closing backtick.
theorem after?_eq_some (h : after? cs = some (call, count)) : ∃ inside behind,
    cs = inside ++ tick :: behind ∧ count = inside.length + 1 := by
  unfold after? at h
  dsimp only at h
  split at h
  · next hcall =>
    cases h
    generalize classLength extendsName cs + (arguments? (cs.drop (classLength extendsName cs))).2 =
      length at hcall ⊢
    have hsplit := List.take_append_drop length cs
    cases hdrop : cs.drop length with
    | nil => simp [hdrop, headIs] at hcall
    | cons c behind =>
        have hc : c = tick := by simpa [hdrop, headIs] using hcall.2
        have hlength : (cs.take length).length = length := by
          have hlt : length < cs.length := by
            by_contra hle
            simp [List.drop_eq_nil_of_le (Nat.not_lt.1 hle)] at hdrop
          rw [List.length_take, Nat.min_eq_left (Nat.le_of_lt hlt)]
        rw [hdrop, hc] at hsplit
        exact ⟨cs.take length, behind, hsplit.symm, by rw [hlength]⟩
  · cases h

-- A call that stands in a text, between its two backticks.
def StandsIn (call : MacroCall) (cs before inside behind : List Char) : Prop :=
  cs = before ++ tick :: (inside ++ tick :: behind) ∧
    after? (inside ++ tick :: behind) = some (call, inside.length + 1)

theorem StandsIn.cons {before inside behind : List Char}
    (h : call.StandsIn cs before inside behind) (c : Char) :
    call.StandsIn (c :: cs) (c :: before) inside behind :=
  ⟨congrArg (c :: ·) h.1, h.2⟩

theorem standsIn_of_mem (h : call ∈ callsFrom skip cs) : ∃ before inside behind,
    call.StandsIn cs before inside behind := by
  induction cs generalizing skip with
  | nil => simp [callsFrom] at h
  | cons c cs ih =>
      have hlater : ∀ {skip : Nat}, call ∈ callsFrom skip cs → ∃ before inside behind,
          call.StandsIn (c :: cs) before inside behind := by
        intro skip hmem
        obtain ⟨before, inside, behind, hstands⟩ := ih hmem
        exact ⟨_, _, _, hstands.cons c⟩
      unfold callsFrom at h
      split at h
      · exact hlater h
      split at h
      · next htick =>
        split at h
        · next found count hafter =>
          rcases List.mem_cons.1 h with rfl | h
          · obtain ⟨inside, behind, rfl, rfl⟩ := after?_eq_some hafter
            exact ⟨[], inside, behind, by rw [htick, List.nil_append], hafter⟩
          · exact hlater h
        · exact hlater h
      · exact hlater h

theorem names_eq_nil {source : String} (h : calls source = []) : names source = [] := by
  rw [names, h]
  rfl

end MacroCall

-- The character at an offset is a part of the token.
def Token.Holds (token : Token) (offset : Nat) (c : Char) : Prop :=
  ∃ before behind, token.text.toList = before ++ c :: behind ∧
    offset = token.start + byteLength before

-- A character that other tokens have no use for stands in a string or in a comment.
theorem Scan.Scans.holds {previous : Option Char} {offset : Nat} {cs : List Char}
    {found : List Token} (h : Scan.Scans previous offset cs found) {mark : Char}
    (hmark : Scan.inToken mark = false) {before behind : List Char}
    (hcs : cs = before ++ mark :: behind) :
    ∃ token ∈ found, (token.kind = .string ∨ token.kind = .comment) ∧
      token.Holds (offset + byteLength before) mark := by
  induction h generalizing before with
  | finish => simp at hcs
  | @token previous offset c more rest kind tokens hlexeme _ ih =>
      rw [← List.cons_append, List.append_eq_append_iff] at hcs
      rcases hcs with ⟨later, rfl, hrest⟩ | ⟨taken, htaken, hmore⟩
      · -- it stands behind this token
        obtain ⟨token, hmem, hkind, hholds⟩ := ih hrest
        rw [Nat.add_assoc, ← byteLength_append] at hholds
        exact ⟨token, List.mem_cons_of_mem _ hmem, hkind, hholds⟩
      · cases taken with
        | nil =>
            rw [List.append_nil] at htaken
            obtain ⟨token, hmem, hkind, hholds⟩ := @ih [] hmore.symm
            rw [htaken] at hholds
            exact ⟨token, List.mem_cons_of_mem _ hmem, hkind, hholds⟩
        | cons d taken =>
            obtain ⟨rfl, -⟩ := List.cons.inj hmore
            refine ⟨_, List.mem_cons_self, ?_, before, taken, ?_, rfl⟩
            · by_contra hkind
              rw [not_or] at hkind
              have hmade := (Scan.lexed_of_lexeme hlexeme).made hkind.1 hkind.2
              rw [Nat.add_comm] at hmade
              have hheld := hmade mark (by simp [htaken])
              rw [hmark] at hheld
              cases hheld
            · rw [String.toList_ofList]
              exact htaken

namespace Query

-- The character at an offset is a part of a string or of a comment.
def Encloses (query : Query) (offset : Nat) (c : Char) : Prop :=
  ∃ token ∈ query.tokens, (token.kind = .string ∨ token.kind = .comment) ∧ token.Holds offset c

variable {source : String} {query : Query}

theorem encloses_tick (h : Query.parse source = .ok query) {before behind : List Char}
    (hsource : source.toList = before ++ MacroCall.tick :: behind) :
    query.Encloses (byteLength before) MacroCall.tick := by
  have hscans := Scan.tokens_eq_ok_iff.1 (parse_eq_ok h).2.1
  obtain ⟨token, hmem, hkind, hholds⟩ := hscans.holds (by decide) hsource
  rw [Nat.zero_add] at hholds
  exact ⟨token, hmem, hkind, hholds⟩

-- Where a query is read, a macro call is found only between backticks of strings and comments, so
-- a query whose strings and comments have none has no macros either.
theorem calls_enclosed (source : String) (query : Query) (h : Query.parse source = .ok query) :
    (∀ call ∈ MacroCall.calls source, ∃ before inside behind,
      call.StandsIn source.toList before inside behind ∧
        query.Encloses (byteLength before) MacroCall.tick ∧
          query.Encloses (byteLength (before ++ MacroCall.tick :: inside)) MacroCall.tick) ∧
    ∃ inventory, Inventory.discover source = .ok inventory ∧
      inventory.macros = MacroCall.names source ∧
        ((∀ token ∈ query.tokens, token.kind = .string ∨ token.kind = .comment →
          MacroCall.tick ∉ token.text.toList) → inventory.macros = []) := by
  have hcalls : ∀ call ∈ MacroCall.calls source, ∃ before inside behind,
      call.StandsIn source.toList before inside behind ∧
        query.Encloses (byteLength before) MacroCall.tick ∧
          query.Encloses (byteLength (before ++ MacroCall.tick :: inside)) MacroCall.tick := by
    intro call hcall
    obtain ⟨before, inside, behind, hstands⟩ := MacroCall.standsIn_of_mem hcall
    have hclosing : source.toList =
        (before ++ MacroCall.tick :: inside) ++ MacroCall.tick :: behind := by
      rw [List.append_assoc]
      exact hstands.1
    exact ⟨before, inside, behind, hstands, encloses_tick h hstands.1, encloses_tick h hclosing⟩
  refine ⟨hcalls, _, discover_of_parse h, rfl, ?_⟩
  intro hfree
  apply MacroCall.names_eq_nil
  apply List.eq_nil_iff_forall_not_mem.2
  intro call hcall
  obtain ⟨before, inside, behind, -, ⟨token, hmem, hkind, front, back, htext, -⟩, -⟩ :=
    hcalls call hcall
  exact hfree token hmem hkind (by simp [htext])

-- A call that opens in one string and closes in the next.
theorem calls_enclosed_strings : ∃ query call before inside behind,
    Query.parse "search a=\"\x60f(\" b=\")\x60\"" = .ok query ∧
    MacroCall.calls "search a=\"\x60f(\" b=\")\x60\"" = [call] ∧ call.name = "f" ∧
    call.StandsIn "search a=\"\x60f(\" b=\")\x60\"".toList before inside behind ∧
    query.Encloses (byteLength before) MacroCall.tick ∧
    query.Encloses (byteLength (before ++ MacroCall.tick :: inside)) MacroCall.tick := by
  have hread : (Query.parse "search a=\"\x60f(\" b=\")\x60\"").toOption.any (fun _ => true) = true := by
    decide +kernel
  have hcalls : MacroCall.calls "search a=\"\x60f(\" b=\")\x60\"" = [⟨"f", some "\" b=\""⟩] := by
    decide +kernel
  obtain ⟨query, hparse, -⟩ := parse_of_any hread
  obtain ⟨before, inside, behind, henclosed⟩ := (calls_enclosed _ query hparse).1
    ⟨"f", some "\" b=\""⟩ (by simp [hcalls])
  exact ⟨query, _, before, inside, behind, hparse, hcalls, rfl, henclosed⟩

-- So a query that is read may be said to have macros.
theorem discover_with_macro : ∃ query, Query.parse "search a=\"\x60m\x60\"" = .ok query ∧
    MacroCall.names "search a=\"\x60m\x60\"" = ["m"] ∧
    Inventory.discover "search a=\"\x60m\x60\"" = .ok { query.inventory with macros := ["m"] } := by
  have hread : (Query.parse "search a=\"\x60m\x60\"").toOption.any (fun _ => true) = true := by
    decide +kernel
  have hnames : MacroCall.names "search a=\"\x60m\x60\"" = ["m"] := by decide +kernel
  obtain ⟨query, hparse, -⟩ := parse_of_any hread
  have hdiscover := discover_of_parse hparse
  rw [hnames] at hdiscover
  exact ⟨query, hparse, hnames, hdiscover⟩

end Query

end SearchPipeline
