import SearchPipeline.Proofs.Rename.FieldPosition
import SearchPipeline.Proofs.Rename.Rendering

namespace SearchPipeline

open Grammar

namespace Splice

variable {tokens : List Token} {replacements : List Replacement}

theorem replaceAll_rising (h : Rising tokens replacements) :
    replaceAll tokens replacements = .ok (render ⟨tokens, replacements⟩) :=
  h.placeable.replaceAll_eq (List.Perm.refl _)

-- What stands in the place of one token.
def pieceAt (replacements : List Replacement) (index : Nat) (token : Token) : String :=
  match replacements.find? (·.span.start == index) with
  | some found => found.text
  | none => if token.kind = .finish then "" else token.text

-- Replacements of single tokens leave the other tokens in their places.
theorem pieces_single (h : ∀ one ∈ replacements, one.span.stop = one.span.start + 1)
    (index : Nat) (tokens : List Token) : pieces replacements 0 index tokens =
      (tokens.zipIdx index).map fun entry => pieceAt replacements entry.2 entry.1 := by
  induction tokens generalizing index with
  | nil => rfl
  | cons token rest ih =>
      rw [List.zipIdx_cons, List.map_cons, ← ih]
      simp only [pieces, pieceAt]
      cases hfind : replacements.find? (·.span.start == index) with
      | none => rfl
      | some found =>
          have hstart : found.span.start = index := by simpa using List.find?_some hfind
          have hstop := h found (List.mem_of_find?_eq_some hfind)
          simp only [show found.span.stop - index - 1 = 0 by omega]

end Splice

namespace Grammar.Located

variable {tape : Tape} {names : List Name} {first stop : Nat}

theorem derives_of_mem {name : Name} (h : Located tape names first stop) (hmem : name ∈ names) :
    ∃ pos, first ≤ pos ∧ pos < stop ∧ Derives tape (.name name) pos (pos + 1) := by
  induction h with
  | nil => cases hmem
  | @cons inner names first pos stop hpos hlt hname _ ih =>
      rcases List.mem_cons.1 hmem with rfl | hmem
      · exact ⟨pos, hpos, hlt, hname⟩
      · obtain ⟨later, hlater, hstop, hderives⟩ := ih hmem
        exact ⟨later, by omega, hstop, hderives⟩

theorem rises (h : Located tape names first stop) (hot : tape.Orderly) (hstop : stop ≤ tape.size) :
    names.Pairwise fun a b => a.span.start < b.span.start := by
  induction h with
  | nil => exact .nil
  | @cons name names first pos stop hpos hlt hname hrest ih =>
      refine .cons ?_ (ih hstop)
      intro other hmem
      obtain ⟨later, hlater, hbound, hother⟩ := hrest.derives_of_mem hmem
      have hname' : name.span = _ := hname.fits.span
      have hother' : other.span = _ := hother.fits.span
      rw [hname', hother', Tape.span_single, Tape.span_single]
      exact hot.rises pos later (by omega) (by omega)

end Grammar.Located

namespace Query

variable {source : String} {query : Query} {name : Name}

-- A name that the query reads as a field is one significant token.
theorem token_of_reads (h : Query.parse source = .ok query) (hreads : query.pipeline.Reads name) :
    ∃ index token, name.span = .single index ∧ query.tokens[index]? = some token ∧
      token.isTrivia = false ∧ token.kind ∈ name.use.kinds ∧ token.kind ≠ .finish ∧
      token.text = name.text := by
  obtain ⟨stop, hspells, -, hkinds, -⟩ := parse_spells h
  obtain ⟨use, huse, rfl⟩ := Pipeline.reads_iff.1 hreads
  obtain ⟨pos, -, hpos, hname⟩ :=
    (Located.pipeline hspells).derives_of_mem (List.mem_map_of_mem huse)
  have hfinish := Kind.ne_finish (hkinds pos hpos)
  obtain ⟨token, hget, htrivia, hkind, htext⟩ := Tape.token_of_kind hfinish
  have hspan : use.name.span = .single (query.tape.index pos) := by
    rw [← Tape.span_single]
    exact hname.fits.span
  have hown : token.kind = query.tape.kind pos := hkind
  have hmem := (Spells.token_iff.1 hname.spells).1
  refine ⟨query.tape.index pos, token, hspan, hget, htrivia, ?_, ?_, ?_⟩
  · rwa [hown]
  · rwa [hown]
  · rw [htext, hname.fits.text _ rfl]
    simp [Tape.textBetween, tape]

-- A name in a field position stands on the token at an index.
def FieldAt (query : Query) (index : Nat) : Prop :=
  ∃ name, query.pipeline.Reads name ∧ name.span = .single index

theorem fieldAt_iff {index : Nat} : query.FieldAt index ↔
    ∃ use ∈ query.pipeline.fieldUses, use.name.span = .single index := by
  simp only [FieldAt, Pipeline.reads_iff]
  constructor
  · rintro ⟨_, ⟨use, huse, rfl⟩, hspan⟩
    exact ⟨use, huse, hspan⟩
  · rintro ⟨use, huse, hspan⟩
    exact ⟨use.name, ⟨use, huse, rfl⟩, hspan⟩

instance (index : Nat) : Decidable (query.FieldAt index) :=
  decidable_of_iff _ fieldAt_iff.symm

-- The text of a token after the renaming.
def substituted (query : Query) (table : NameTable) (index : Nat) (token : Token) : String :=
  if query.FieldAt index then table[token.text]?.getD token.text else token.text

def replacements (query : Query) (table : NameTable) : List Replacement :=
  (query.pipeline.renames table).map fun rename => ⟨rename.span, rename.target⟩

section Renames

variable {table : NameTable} {rename : Rename}

theorem mem_renames : rename ∈ query.pipeline.renames table ↔
    ∃ use ∈ query.pipeline.fieldUses, rename.span = use.name.span ∧ rename.source = use.name.text ∧
      table[use.name.text]? = some rename.target ∧ rename.position = use.position := by
  simp only [Pipeline.renames, List.mem_filterMap, FieldUse.rename?, Option.map_eq_some_iff]
  constructor
  · rintro ⟨use, huse, target, htarget, rfl⟩
    exact ⟨use, huse, rfl, rfl, htarget, rfl⟩
  · rintro ⟨use, huse, hspan, hsource, htarget, hposition⟩
    refine ⟨use, huse, rename.target, htarget, ?_⟩
    rw [← hspan, ← hsource, ← hposition]

-- Every rename is of one significant token in a field position whose text is a key.
theorem token_of_rename (h : Query.parse source = .ok query)
    (hmem : rename ∈ query.pipeline.renames table) :
    ∃ index token, rename.span = .single index ∧ query.FieldAt index ∧
      query.tokens[index]? = some token ∧ token.isTrivia = false ∧ token.kind ≠ .finish ∧
      rename.source = token.text ∧ table[token.text]? = some rename.target := by
  obtain ⟨use, huse, hspan, hsource, htarget, -⟩ := mem_renames.1 hmem
  have hreads := Pipeline.reads_iff.2 ⟨use, huse, rfl⟩
  obtain ⟨index, token, hsingle, hget, htrivia, -, hkind, htext⟩ := token_of_reads h hreads
  rw [← htext] at hsource htarget
  exact ⟨index, token, hspan.trans hsingle, ⟨use.name, hreads, hsingle⟩, hget, htrivia, hkind,
    hsource, htarget⟩

theorem renames_rise (h : Query.parse source = .ok query) :
    (query.pipeline.renames table).Pairwise fun a b => a.span.start < b.span.start := by
  obtain ⟨stop, hspells, -, -, hsize, -⟩ := parse_spells h
  have hot : query.tape.Orderly := Tape.ofTokens_orderly query.source query.tokens
  have hrise := List.pairwise_map.1 ((Located.pipeline hspells).rises hot (by omega))
  refine List.Pairwise.filterMap _ ?_ hrise
  intro a b hlt a' ha b' hb
  simp only [FieldUse.rename?, Option.map_eq_some_iff] at ha hb
  obtain ⟨target, -, rfl⟩ := ha
  obtain ⟨other, -, rfl⟩ := hb
  exact hlt

theorem replacements_single (h : Query.parse source = .ok query) :
    ∀ one ∈ query.replacements table, one.span.stop = one.span.start + 1 ∧
      one.span.stop ≤ query.tokens.length := by
  intro one hmem
  obtain ⟨rename, hrename, rfl⟩ := List.mem_map.1 hmem
  obtain ⟨index, token, hspan, -, hget, -⟩ := token_of_rename h hrename
  simp only [hspan]
  exact ⟨rfl, (List.getElem?_eq_some_iff.1 hget).1⟩

theorem replacements_rise (table : NameTable) (h : Query.parse source = .ok query) :
    Splice.Rising query.tokens (query.replacements table) where
  order := by
    refine List.pairwise_map.2 ((renames_rise h).imp_of_mem ?_)
    intro a b ha _ hlt
    obtain ⟨index, -, hspan, -⟩ := token_of_rename h ha
    rw [hspan] at hlt ⊢
    exact hlt
  inside one hmem := by
    obtain ⟨hsingle, hin⟩ := replacements_single h one hmem
    exact ⟨by omega, hin⟩

-- What stands in the place of a token is its new name if it has one, and its own text otherwise.
theorem pieceAt_eq_substituted (h : Query.parse source = .ok query) {index : Nat} {token : Token}
    (hget : query.tokens[index]? = some token) (hkind : token.kind ≠ .finish) :
    Splice.pieceAt (query.replacements table) index token =
      query.substituted table index token := by
  unfold Splice.pieceAt
  split
  · next found hfound =>
    obtain ⟨rename, hmem, rfl⟩ := List.mem_map.1 (List.mem_of_find?_eq_some hfound)
    obtain ⟨other, same, hspan, hfield, hsame, -, -, -, htarget⟩ := token_of_rename h hmem
    have hindex : other = index := by
      simpa [hspan, Span.single] using List.find?_some hfound
    subst hindex
    cases hget.symm.trans hsame
    simp [substituted, hfield, htarget]
  · next hnone =>
    rw [if_neg hkind, substituted]
    split
    · next hfield =>
      -- a field position whose text is a key would have a replacement
      obtain ⟨use, huse, hspan⟩ := fieldAt_iff.1 hfield
      obtain ⟨other, same, hsingle, hsame, -, -, -, htext⟩ :=
        token_of_reads h (Pipeline.reads_iff.2 ⟨use, huse, rfl⟩)
      have hindex : other = index := congrArg Span.start (hsingle.symm.trans hspan)
      subst hindex
      cases hget.symm.trans hsame
      cases htarget : table[token.text]? with
      | none => rfl
      | some target =>
          have hrename : (⟨use.name.span, use.name.text, target, use.position⟩ : Rename) ∈
              query.pipeline.renames table :=
            mem_renames.2 ⟨use, huse, rfl, rfl, by rw [← htext]; exact htarget, rfl⟩
          have habsent := List.find?_eq_none.1 hnone _ (List.mem_map_of_mem hrename)
          simp [hspan, Span.single] at habsent
    · rfl

-- The end of the query is never replaced, and it has no text.
theorem pieceAt_finish (table : NameTable) (h : Query.parse source = .ok query) {index : Nat}
    {token : Token}
    (hget : query.tokens[index]? = some token) (hkind : token.kind = .finish) :
    Splice.pieceAt (query.replacements table) index token = "" := by
  unfold Splice.pieceAt
  split
  · next found hfound =>
    obtain ⟨rename, hmem, rfl⟩ := List.mem_map.1 (List.mem_of_find?_eq_some hfound)
    obtain ⟨other, same, hspan, -, hsame, -, hother, -⟩ := token_of_rename h hmem
    have hindex : other = index := by
      simpa [hspan, Span.single] using List.find?_some hfound
    subst hindex
    cases hget.symm.trans hsame
    exact absurd hkind hother
  · exact if_pos hkind

theorem render_replacements (h : Query.parse source = .ok query) :
    Splice.render ⟨query.tokens, query.replacements table⟩ =
      Text.trimmed (String.join (query.tokens.dropLast.zipIdx.map fun entry =>
        query.substituted table entry.2 entry.1)) := by
  obtain ⟨before, last, htokens, hlast, hbefore⟩ :=
    (Scan.tokens_eq_ok_iff.1 (parse_eq_ok h).2.1).ends
  have hget : query.tokens[before.length]? = some last := by simp [htokens]
  have hend := pieceAt_finish table h hget hlast
  have hpieces : before.zipIdx.map (fun entry =>
      Splice.pieceAt (query.replacements table) entry.2 entry.1) =
        before.zipIdx.map fun entry => query.substituted table entry.2 entry.1 := by
    refine List.map_congr_left fun entry hentry => ?_
    have hget := List.mem_zipIdx_iff_getElem?.1 hentry
    refine pieceAt_eq_substituted h ?_ (hbefore _ (List.mem_of_getElem? hget))
    rw [htokens, List.getElem?_append_left (List.getElem?_eq_some_iff.1 hget).1, hget]
  rw [Splice.render, Splice.pieces_single fun one hmem => (replacements_single h one hmem).1]
  simp only [htokens, List.dropLast_concat, List.zipIdx_append, List.map_append, hpieces,
    List.zipIdx_cons, List.zipIdx_nil, List.map_cons, List.map_nil, Nat.zero_add, hend]
  simp

end Renames

end Query

theorem renameFields_of_parse {source : String} {query : Query} (table : NameTable)
    (h : Query.parse source = .ok query) : renameFields source table =
      .ok (Splice.render ⟨query.tokens, query.replacements table⟩) := by
  have hall := Splice.replaceAll_rising (Query.replacements_rise table h)
  simp only [Query.replacements] at hall
  simp only [renameFields, h, Query.rename, Except.mapError, bind, Except.bind, hall]
  rfl

-- Renaming a query that is read puts the new name in the place of every token in a field position
-- whose text has one, copies every other token, drops the end and trims the result. The renames
-- are of single significant tokens and strictly rise, so no two of them meet.
theorem renameFields_eq_substitution (source : String) (query : Query) (table : NameTable)
    (h : Query.parse source = .ok query) :
    renameFields source table = .ok (Text.trimmed (String.join
        (query.tokens.dropLast.zipIdx.map fun entry =>
          query.substituted table entry.2 entry.1))) ∧
      ((query.pipeline.renames table).Pairwise fun a b => a.span.start < b.span.start) ∧
      ∀ rename ∈ query.pipeline.renames table, ∃ index token, rename.span = .single index ∧
        query.FieldAt index ∧ query.tokens[index]? = some token ∧ token.isTrivia = false ∧
        token.kind ≠ .finish ∧ rename.source = token.text ∧
        table[token.text]? = some rename.target := by
  refine ⟨?_, Query.renames_rise h, fun rename hmem => Query.token_of_rename h hmem⟩
  rw [renameFields_of_parse table h, Query.render_replacements h]

theorem renameFields_eq_substitution_nested : ∃ query,
    Query.parse " NOT (a=a) BY a [search a=1 | lookup a a OUTPUT a | fields a, b] " = .ok query ∧
      renameFields " NOT (a=a) BY a [search a=1 | lookup a a OUTPUT a | fields a, b] "
          (({} : NameTable).insert "a" "x") =
        .ok (Text.trimmed (String.join (query.tokens.dropLast.zipIdx.map fun entry =>
          query.substituted (({} : NameTable).insert "a" "x") entry.2 entry.1))) := by
  have hread : (Query.parse
      " NOT (a=a) BY a [search a=1 | lookup a a OUTPUT a | fields a, b] ").toOption.any
        (fun _ => true) = true := by decide +kernel
  obtain ⟨query, hparse, -⟩ := Query.parse_of_any hread
  exact ⟨query, hparse, (renameFields_eq_substitution _ query _ hparse).1⟩

example : (renameFields " NOT (a=a) BY a [search a=1 | lookup a a OUTPUT a | fields a, b] "
    (({} : NameTable).insert "a" "x")).toOption =
      some "NOT (x=a) BY x [search x=1 | lookup a x OUTPUT a | fields x, b]" := by
  decide +kernel

end SearchPipeline
