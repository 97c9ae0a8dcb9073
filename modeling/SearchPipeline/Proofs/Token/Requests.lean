import Mathlib.Data.List.Chain
import SearchPipeline.Proofs.Token.Bytes
import SearchPipeline.Proofs.Token.Tiling

namespace SearchPipeline.Scan

open Text

section Flaws

variable {previous : Option Char} {c : Char} {cs : List Char} {flaw : Flaw} {more : Nat}

theorem blockComment_flawed {close : List Char} {opened : Nat}
    (h : blockComment close opened cs = ⟨.error flaw, more⟩) : more = cs.length := by
  unfold blockComment at h
  split at h
  · cases h
  · cases h
    rfl

theorem comment_flawed (h : comment? previous c cs = some ⟨.error flaw, more⟩) :
    more = cs.length := by
  unfold comment? at h
  split at h
  · exact blockComment_flawed (Option.some.inj h)
  split at h
  · exact blockComment_flawed (Option.some.inj h)
  split at h <;> cases h

theorem quoted_flawed (h : quoted? c cs = some ⟨.error flaw, more⟩) : more = cs.length := by
  unfold quoted? at h
  split at h
  · split at h
    · cases h
    · cases h
      rfl
  · cases h

theorem digits_flawless (h : digits? c cs = some ⟨.error flaw, more⟩) : False := by
  unfold digits? at h
  split at h
  · split at h <;> cases h
  · cases h

theorem markedTime_flawless (h : markedTime? c cs = some ⟨.error flaw, more⟩) : False := by
  unfold markedTime? at h
  split at h
  · obtain ⟨count, -, heq⟩ := Option.map_eq_some_iff.1 h
    cases heq
  split at h
  · obtain ⟨count, -, heq⟩ := Option.map_eq_some_iff.1 h
    cases heq
  · cases h

theorem word_flawless (h : word? c cs = some ⟨.error flaw, more⟩) : False := by
  unfold word? at h
  split at h
  · cases h
  split at h <;> cases h

theorem operator_flawed (h : operator c cs = ⟨.error flaw, more⟩) : more = 0 := by
  unfold operator at h
  split at h
  · cases h
  split at h
  · cases h
  · cases h
    rfl

-- What is wrong with a text is one character of it, or all the rest.
theorem lexeme_flawed (h : lexeme previous c cs = ⟨.error flaw, more⟩) :
    more = 0 ∨ more = cs.length := by
  unfold lexeme at h
  split at h
  · cases h
  have hrule := Option.getD_eq_iff.1 h
  simp only [Option.or_eq_some_iff] at hrule
  rcases hrule with (hcomment | ⟨-, hquoted | ⟨-, hdigits | ⟨-, hmarked | ⟨-, hword⟩⟩⟩⟩) |
    ⟨-, hoperator⟩
  · exact .inr (comment_flawed hcomment)
  · exact .inr (quoted_flawed hquoted)
  · exact (digits_flawless hdigits).elim
  · exact (markedTime_flawless hmarked).elim
  · exact (word_flawless hword).elim
  · exact .inl (operator_flawed hoperator)

theorem lexeme_le_length (previous : Option Char) (c : Char) (cs : List Char) :
    (lexeme previous c cs).more ≤ cs.length := by
  generalize hfound : lexeme previous c cs = found
  obtain ⟨flaw | kind, more⟩ := found
  · rcases lexeme_flawed hfound with hmore | hmore
    · exact hmore ▸ Nat.zero_le _
    · exact Nat.le_of_eq hmore
  · exact (lexed_of_lexeme hfound).le_length

end Flaws

-- The bytes that a lexeme passes over. A time is measured by counting bytes, everything else is
-- passed over character by character.
def Lexeme.bytes (found : Lexeme) (c : Char) (cs : List Char) : Nat :=
  match found.verdict with
  | .ok .time => found.more + 1
  | _ => byteLength (c :: cs.take found.more)

theorem bytes_lexeme (previous : Option Char) (c : Char) (cs : List Char) :
    (lexeme previous c cs).bytes c cs = byteLength (c :: cs.take (lexeme previous c cs).more) := by
  generalize hfound : lexeme previous c cs = found
  unfold Lexeme.bytes
  split
  · next htime =>
    obtain ⟨verdict, more⟩ := found
    cases htime
    exact ((lexed_of_lexeme hfound).time_bytes rfl).symm
  · rfl

-- One request, from a byte offset on: the item that begins there, and the offset behind it. At the
-- end, the token that marks it is given and the offset stays.
def request (source : String) (offset : Nat) : Item × Nat :=
  match fromOffset source.toList offset with
  | [] => (.ok ⟨.finish, "", offset⟩, offset)
  | c :: cs =>
    let found := lexeme (beforeOffset source.toList offset).getLast? c cs
    (item offset c cs found, offset + found.bytes c cs)

-- What repeated requests give from an offset on. Each leads forward to a place between two
-- characters, not behind the end of the text, and a token covers what was passed over; only the
-- last request, at the end, gives the token that marks it.
inductive Requests (source : String) : Nat → List Item → Prop where
  | finish {offset : Nat} : offset = source.utf8ByteSize →
      request source offset = (.ok ⟨.finish, "", offset⟩, offset) →
      Requests source offset [.ok ⟨.finish, "", offset⟩]
  | next {offset behind : Nat} {item : Item} {items : List Item} :
      request source offset = (item, behind) → offset < behind →
      behind ≤ source.utf8ByteSize → String.Pos.Raw.IsValid source ⟨behind⟩ →
      (∀ token, item = .ok token →
        token.kind ≠ .finish ∧ token.start = offset ∧ token.stop = behind) →
      Requests source behind items → Requests source offset (item :: items)

section

variable {source : String} {read rest : List Char} {c : Char} {cs : List Char}

theorem request_finish (h : source.toList = read) :
    request source (byteLength read) = (.ok ⟨.finish, "", byteLength read⟩, byteLength read) := by
  have hrest := fromOffset_append read []
  rw [List.append_nil, ← h] at hrest
  simp only [request, ← h, hrest]

theorem request_item (h : source.toList = read ++ c :: cs) :
    request source (byteLength read) =
      (item (byteLength read) c cs (lexeme read.getLast? c cs),
        byteLength (read ++ c :: cs.take (lexeme read.getLast? c cs).more)) := by
  simp only [request, h, fromOffset_append, beforeOffset_append, bytes_lexeme, byteLength_append]

-- A token stands where its characters do.
theorem item_token {offset : Nat} {previous : Option Char} {token : Token}
    (h : item offset c cs (lexeme previous c cs) = .ok token) :
    token.kind ≠ .finish ∧ token.start = offset ∧
      token.stop = offset + byteLength (c :: cs.take (lexeme previous c cs).more) := by
  obtain ⟨kind, hverdict, rfl⟩ := item_eq_ok h
  refine ⟨?_, rfl, ?_⟩
  · have hlexeme : lexeme previous c cs = ⟨.ok kind, (lexeme previous c cs).more⟩ := by
      rw [← hverdict]
    exact (lexed_of_lexeme hlexeme).ne_finish
  · simp only [Token.stop, byteLength_eq]

-- By induction on what is left: a request takes at least one character of it.
theorem requests_itemsFrom (hsource : source.toList = read ++ rest) :
    Requests source (byteLength read) (itemsFrom [] 0 read.getLast? (byteLength read) rest) := by
  induction hlength : rest.length using Nat.strongRecOn generalizing read rest with
  | ind length ih =>
  cases rest with
  | nil =>
      rw [List.append_nil] at hsource
      refine .finish ?_ (request_finish hsource)
      rw [← hsource, byteLength_toList]
  | cons c cs =>
      have hrequest := request_item hsource
      have htoken : ∀ token, item (byteLength read) c cs (lexeme read.getLast? c cs) = .ok token →
          _ := fun token h => item_token h
      have hle := lexeme_le_length read.getLast? c cs
      rw [itemsFrom_cons]
      generalize lexeme read.getLast? c cs = found at hrequest htoken hle ⊢
      -- what the request takes, and what it leaves
      obtain ⟨more, behind, rfl, hmore⟩ : ∃ more behind, cs = more ++ behind ∧
          found.more = more.length := ⟨cs.take found.more, cs.drop found.more, by simp, by simp [hle]⟩
      rw [hmore, List.take_left] at hrequest htoken
      have hsplit : source.toList = (read ++ c :: more) ++ behind := by simp [hsource]
      have hrest := ih behind.length (by rw [← hlength, List.length_cons, List.length_append]; omega)
        hsplit rfl
      have hlast : (read ++ c :: more).getLast? = some (lastOf c more) := by
        rw [List.getLast?_append, List.getLast?_eq_some_getLast (List.cons_ne_nil c more)]
        rfl
      rw [hmore, itemsFrom_skip]
      rw [hlast, byteLength_append, byteLength] at hrest
      refine .next hrequest ?_ ?_ (isValid_of_append hsplit) ?_ ?_
      · have := c.utf8Size_pos
        simp only [byteLength_append, byteLength]
        omega
      · rw [← byteLength_toList, hsplit, byteLength_append _ behind]
        omega
      · simpa only [byteLength_append] using htoken
      · simpa only [byteLength_append, byteLength, Nat.add_assoc] using hrest

theorem requests_items (source : String) : Requests source 0 (items source) :=
  requests_itemsFrom (show source.toList = [] ++ source.toList from rfl)

end

-- What the tokens of a text without flaws keep of it: everything, each in its own place.
structure Lossless (source : String) (found : List Token) : Prop where
  ends : ∃ before, found = before ++ [⟨.finish, "", source.utf8ByteSize⟩] ∧
    ∀ token ∈ before, token.kind ≠ .finish ∧ token.text ≠ ""
  begins : (found.map (·.start)).head? = some 0
  joined : found.IsChain fun a b => a.stop = b.start
  slices : ∀ token ∈ found,
    String.ofList (slice source.toList token.start token.stop) = token.text
  whole : String.join (found.map (·.text)) = source

namespace Scans

variable {previous : Option Char} {offset : Nat} {cs : List Char} {found : List Token}

theorem starts (h : Scans previous offset cs found) :
    (found.map (·.start)).head? = some offset := by
  cases h <;> rfl

theorem closes (h : Scans previous offset cs found) :
    ∃ before, found = before ++ [⟨.finish, "", offset + byteLength cs⟩] ∧
      ∀ token ∈ before, token.kind ≠ .finish ∧ token.text ≠ "" := by
  induction h with
  | finish => exact ⟨[], rfl, by simp⟩
  | @token previous offset c more rest kind tokens hlexeme _ ih =>
      obtain ⟨before, rfl, hbefore⟩ := ih
      refine ⟨⟨kind, String.ofList (c :: more), offset⟩ :: before, ?_, ?_⟩
      · rw [List.cons_append, ← @List.cons_append _ c more, byteLength_append, Nat.add_assoc]
      · rintro token (_ | ⟨_, hmem⟩)
        · refine ⟨(lexed_of_lexeme hlexeme).ne_finish, ?_⟩
          simp [← String.toList_inj]
        · exact hbefore token hmem

theorem joined (h : Scans previous offset cs found) :
    found.IsChain fun a b => a.stop = b.start := by
  induction h with
  | finish => exact List.IsChain.singleton _
  | @token previous offset c more rest kind tokens _ hrest ih =>
      refine ih.cons fun next hnext => ?_
      have hstart := hrest.starts
      rw [List.head?_map, hnext, Option.map_some, Option.some.injEq] at hstart
      simp only [Token.stop, hstart, byteLength_eq]

theorem slices (h : Scans previous offset cs found) {read : List Char}
    (hread : byteLength read = offset) {token : Token} (hmem : token ∈ found) :
    slice (read ++ cs) token.start token.stop = token.text.toList := by
  induction h generalizing read with
  | finish =>
      cases List.mem_singleton.1 hmem
      subst hread
      have hrest := fromOffset_append read []
      simp only [List.append_nil] at hrest
      simp [slice, hrest, beforeOffset]
  | @token previous offset c more rest kind tokens _ hrest ih =>
      rcases List.mem_cons.1 hmem with rfl | hmem
      · have hwidth : offset + byteLength (c :: more) - offset = byteLength (c :: more) := by omega
        rw [← hread] at hwidth ⊢
        simp only [slice, Token.stop, ← byteLength_eq, hwidth, fromOffset_append,
          String.toList_ofList, ← List.cons_append, beforeOffset_append]
      · have hbehind := ih (show byteLength (read ++ c :: more) = _ by rw [byteLength_append, hread]) hmem
        simpa using hbehind

theorem lossless {source : String} (h : Scans none 0 source.toList found) :
    Lossless source found where
  ends := by
    rw [← byteLength_toList, ← Nat.zero_add (byteLength source.toList)]
    exact h.closes
  begins := h.starts
  joined := h.joined
  slices token hmem := by
    have hslice := h.slices (show byteLength [] = 0 from rfl) hmem
    rw [List.nil_append] at hslice
    rw [hslice, String.ofList_toList]
  whole := by
    rw [← String.toList_inj, String.toList_join, List.flatMap_map]
    exact h.texts

end Scans

-- Scanning always comes to an end, and loses nothing. Requests from the start on give all items one
-- by one; if none of them is a flaw, they are the tokens of the text.
theorem tokens_lossless (source : String) : Requests source 0 (items source) ∧
    ((∃ found, tokens source = .ok found ∧ items source = found.map .ok ∧ Lossless source found) ∨
      ∃ first others, tokens source = .error (first :: others)) := by
  refine ⟨requests_items source, ?_⟩
  cases hfound : tokens source with
  | ok found =>
      have hscans := tokens_eq_ok_iff.1 hfound
      exact .inl ⟨found, rfl, scans_iff_itemsFrom.1 hscans, hscans.lossless⟩
  | error wrong =>
      right
      unfold tokens at hfound
      simp only at hfound
      split at hfound
      · cases hfound
      · next hne =>
        cases hfound
        obtain ⟨first, others, heq⟩ := List.exists_cons_of_ne_nil hne
        exact ⟨first, others, congrArg _ heq⟩

end SearchPipeline.Scan
