import SearchPipeline.Json.Decode
import SearchPipeline.Proofs.Json.Spelling

namespace SearchPipeline.Json

namespace Numeral

-- The number that digits spell behind a front.
def digitsValue (front : Nat) (digits : List Nat) : Nat :=
  digits.foldl (fun value digit => value * 10 + digit) front

theorem le_digitsValue (front : Nat) (digits : List Nat) : front ≤ digitsValue front digits := by
  induction digits generalizing front with
  | nil => exact Nat.le_refl front
  | cons digit digits ih => exact Nat.le_trans (by omega) (ih (front * 10 + digit))

theorem gather_eq (front : Nat) (digits : List Nat) (hfits : digitsValue front digits ≤ wordLimit) :
    gather front digits = (digitsValue front digits, digits.length, 0) := by
  induction digits generalizing front with
  | nil => rfl
  | cons digit digits ih =>
      have hfront := le_digitsValue (front * 10 + digit) digits
      have hrest : digitsValue (front * 10 + digit) digits ≤ wordLimit := hfits
      rw [gather, if_neg (by omega), ih _ hrest]
      rfl

theorem gather_le {front : Nat} (digits : List Nat) (hfront : front ≤ wordLimit) :
    (gather front digits).1 ≤ wordLimit := by
  induction digits generalizing front with
  | nil => exact hfront
  | cons digit digits ih =>
      rw [gather]
      split_ifs with hlarge
      · exact hfront
      · exact ih (by omega)

theorem digitsValue_toDigits (value : Nat) :
    digitsValue 0 ((Nat.toDigits 10 value).map fun c => c.toNat - '0'.toNat) = value := by
  have hcore : Nat.ofDigitChars 10 (Nat.toDigits 10 value) 0 = value :=
    Nat.ofDigitChars_toDigits (by omega) (by omega)
  rw [Nat.ofDigitChars] at hcore
  simpa only [digitsValue, List.foldl_map, Nat.mul_comm] using hcore

-- The whole numbers that a numeral can stand for.
def InRange (value : Int) : Prop := -(signLimit : Int) ≤ value ∧ value ≤ wordLimit

theorem inRange_of_wholeValue? {numeral : Numeral} {value : Int}
    (hvalue : numeral.wholeValue? = some value) : InRange value := by
  have hle : (gather 0 numeral.whole).1 ≤ wordLimit := gather_le numeral.whole (Nat.zero_le _)
  have hpos : (0 : Int) ≤ signLimit := Int.natCast_nonneg _
  unfold wholeValue? at hvalue
  simp only [] at hvalue
  split_ifs at hvalue with hparts hdropped hnegative hsmall <;> cases hvalue <;>
    constructor <;> omega

theorem wholeValue?_ofInt {value : Int} (hrange : InRange value) :
    (ofInt value).wholeValue? = some value := by
  have hsign : signLimit ≤ wordLimit := by decide
  have hgather := gather_eq 0 ((Nat.toDigits 10 value.natAbs).map fun c => c.toNat - '0'.toNat)
    (by rw [digitsValue_toDigits]; obtain ⟨hlow, hhigh⟩ := hrange; omega)
  rw [digitsValue_toDigits] at hgather
  simp only [wholeValue?, ofInt, hgather]
  obtain ⟨hlow, hhigh⟩ := hrange
  by_cases hnegative : value < 0
  · have habs : (value.natAbs : Int) = -value := Int.ofNat_natAbs_of_nonpos (by omega)
    simp only [hnegative, decide_true, Bool.not_true, Bool.false_eq_true, Option.isSome_none,
      or_self, gt_iff_lt, lt_self_iff_false, if_false]
    rw [if_pos (by omega), habs, Int.neg_neg]
  · have habs : (value.natAbs : Int) = value := Int.natAbs_of_nonneg (by omega)
    simp [hnegative, habs]

-- A numeral stands for a number and for nothing else.
theorem value?_eq_some {numeral : Numeral} {value : Json} (hvalue : numeral.value? = some value) :
    (∃ whole, InRange whole ∧ value = .int whole) ∨ value.hasFloat = true := by
  unfold value? at hvalue
  split at hvalue
  · next whole hwhole =>
      cases hvalue
      exact .inl ⟨whole, inRange_of_wholeValue? hwhole, rfl⟩
  · obtain ⟨float, -, rfl⟩ := Option.map_eq_some_iff.1 hvalue
    exact .inr rfl

end Numeral

section Members

-- Members sorted by key, no key twice.
def Sorted (members : List (String × Json)) : Prop := members.Pairwise (·.1 < ·.1)

theorem mem_insertMember {key : String} {value : Json} {members : List (String × Json)}
    {entry : String × Json} (hmem : entry ∈ insertMember key value members) :
    entry = (key, value) ∨ entry ∈ members := by
  induction members with
  | nil => exact .inl (List.mem_singleton.1 hmem)
  | cons other rest ih =>
      rw [insertMember] at hmem
      split_ifs at hmem with hbefore hsame
      · exact (List.mem_cons.1 hmem)
      · exact (List.mem_cons.1 hmem).imp_right (.tail _)
      · rcases List.mem_cons.1 hmem with rfl | hmem
        · exact .inr (.head _)
        · exact (ih hmem).imp_right (.tail _)

theorem sorted_insertMember {key : String} {value : Json} {members : List (String × Json)}
    (hsorted : Sorted members) : Sorted (insertMember key value members) := by
  induction members with
  | nil => exact List.pairwise_singleton _ _
  | cons other rest ih =>
      obtain ⟨hfirst, hrest⟩ := List.pairwise_cons.1 hsorted
      rw [insertMember]
      split_ifs with hbefore hsame
      · refine List.pairwise_cons.2 ⟨fun entry hmem => ?_, hsorted⟩
        rcases List.mem_cons.1 hmem with rfl | hmem
        · exact hbefore
        · exact String.lt_trans hbefore (hfirst entry hmem)
      · subst hsame
        exact List.pairwise_cons.2 ⟨hfirst, hrest⟩
      · refine List.pairwise_cons.2 ⟨fun entry hmem => ?_, ih hrest⟩
        rcases mem_insertMember hmem with rfl | hmem
        · by_contra hbehind
          exact hsame (String.le_antisymm (String.not_lt.1 hbehind) (String.not_lt.1 hbefore))
        · exact hfirst entry hmem

-- A key behind all others is put at the end.
theorem insertMember_of_last {key : String} {value : Json} {members : List (String × Json)}
    (hlast : ∀ entry ∈ members, entry.1 < key) :
    insertMember key value members = members ++ [(key, value)] := by
  induction members with
  | nil => rfl
  | cons other rest ih =>
      have hother := hlast other (.head _)
      have hne : key ≠ other.1 := fun hsame => String.lt_irrefl _ (hsame ▸ hother)
      rw [insertMember, if_neg (String.lt_asymm hother), if_neg hne,
        ih fun entry hmem => hlast entry (.tail _ hmem), List.cons_append]

theorem sorted_sortMembers (members : List (String × Json)) : Sorted (sortMembers members) := by
  refine List.foldlRecOn members _ (motive := Sorted) List.Pairwise.nil fun _ hsorted _ _ => ?_
  exact sorted_insertMember hsorted

theorem mem_of_mem_sortMembers {members : List (String × Json)} {entry : String × Json}
    (hmem : entry ∈ sortMembers members) : entry ∈ members := by
  have hall : ∀ entry ∈ sortMembers members, entry ∈ members := by
    refine List.foldlRecOn members _ (motive := fun sorted => ∀ entry ∈ sorted, entry ∈ members)
      (by simp) fun _ hsorted other hother entry hmem => ?_
    rcases mem_insertMember hmem with rfl | hmem
    · exact hother
    · exact hsorted entry hmem
  exact hall entry hmem

theorem foldl_insertMember_of_sorted (front members : List (String × Json))
    (hsorted : Sorted (front ++ members)) :
    members.foldl (fun sorted entry => insertMember entry.1 entry.2 sorted) front =
      front ++ members := by
  induction members generalizing front with
  | nil => simp
  | cons entry rest ih =>
      have hlast : ∀ other ∈ front, other.1 < entry.1 := fun other hmem =>
        (List.pairwise_append.1 hsorted).2.2 other hmem entry (.head _)
      rw [List.foldl_cons, insertMember_of_last hlast, ih _ (by simpa using hsorted)]
      simp

theorem sortMembers_of_sorted {members : List (String × Json)} (hsorted : Sorted members) :
    sortMembers members = members :=
  foldl_insertMember_of_sorted [] members hsorted

end Members

namespace Document

-- A value that is written and read again with as much room.
def Restored (room : Nat) (value : Json) : Prop := (ofJson value).toJson? room = some value

theorem toJsons?_ofJsons {room : Nat} {items : List Json}
    (hitems : ∀ item ∈ items, Restored room item) : toJsons? room (ofJsons items) = some items := by
  induction items with
  | nil => rfl
  | cons item rest ih =>
      rw [ofJsons, toJsons?, hitems item (.head _),
        ih fun other hmem => hitems other (.tail _ hmem)]
      rfl

theorem toMembers?_ofMembers {room : Nat} {members : List (String × Json)}
    (hmembers : ∀ entry ∈ members, Restored room entry.2) :
    toMembers? room (ofMembers members) = some members := by
  induction members with
  | nil => rfl
  | cons entry rest ih =>
      rw [ofMembers, toMembers?, hmembers entry (.head _),
        ih fun other hmem => hmembers other (.tail _ hmem)]
      rfl

mutual

-- A value that was read is restored, with the same room.
theorem restored_of_toJson? : ∀ {room : Nat} {document : Document} {value : Json},
    document.toJson? room = some value → value.hasFloat = false → Restored room value := by
  intro room document value hread hfloat
  cases document with
  | null => cases hread; rw [Restored, ofJson, toJson?]
  | bool flag => cases hread; rw [Restored, ofJson, toJson?]
  | number numeral =>
      rcases Numeral.value?_eq_some hread with ⟨whole, hrange, rfl⟩ | hfloats
      · rw [Restored, ofJson, toJson?, Numeral.value?, Numeral.wholeValue?_ofInt hrange]
      · rw [hfloat] at hfloats
        cases hfloats
  | string text =>
      rw [toJson?, Option.map_eq_some_iff] at hread
      obtain ⟨text, -, rfl⟩ := hread
      rw [Restored, ofJson, toJson?, Option.map_some]
  | list items =>
      cases room with
      | zero => cases hread
      | succ room =>
          rw [toJson?, Option.map_eq_some_iff] at hread
          obtain ⟨values, hvalues, rfl⟩ := hread
          rw [Restored, ofJson, toJson?, toJsons?_ofJsons (restored_of_toJsons? hvalues hfloat),
            Option.map_some]
  | object members =>
      cases room with
      | zero => cases hread
      | succ room =>
          rw [toJson?, Option.map_eq_some_iff] at hread
          obtain ⟨found, hfound, rfl⟩ := hread
          have hmembers : ∀ entry ∈ sortMembers found, Restored room entry.2 :=
            fun entry hmem => restored_of_toMembers? hfound entry (mem_of_mem_sortMembers hmem)
              (anyMemberFloat_eq_false_iff.1 hfloat entry hmem)
          rw [Restored, ofJson, toJson?, toMembers?_ofMembers hmembers, Option.map_some,
            sortMembers_of_sorted (sorted_sortMembers found)]

theorem restored_of_toJsons? : ∀ {room : Nat} {documents : List Document} {values : List Json},
    toJsons? room documents = some values → anyFloat values = false →
    ∀ value ∈ values, Restored room value := by
  intro room documents values hread hfloat
  cases documents with
  | nil => cases hread; simp
  | cons document documents =>
      simp only [toJsons?, Option.bind_eq_bind, Option.bind_eq_some_iff] at hread
      obtain ⟨value, hvalue, rest, hrest, hsame⟩ := hread
      cases hsame
      obtain ⟨hfirst, hbehind⟩ := Bool.or_eq_false_iff.1 hfloat
      exact List.forall_mem_cons.2
        ⟨restored_of_toJson? hvalue hfirst, restored_of_toJsons? hrest hbehind⟩

-- Which members have to be free of floating-point numbers is left open, because a repeated key
-- leaves only its last value.
theorem restored_of_toMembers? : ∀ {room : Nat} {documents : List (Option String × Document)}
    {members : List (String × Json)}, toMembers? room documents = some members →
    ∀ entry ∈ members, entry.2.hasFloat = false → Restored room entry.2 := by
  intro room documents members hread
  cases documents with
  | nil => cases hread; simp
  | cons entry documents =>
      obtain ⟨key, document⟩ := entry
      simp only [toMembers?, Option.bind_eq_bind, Option.bind_eq_some_iff] at hread
      obtain ⟨key, -, value, hvalue, rest, hrest, hsame⟩ := hread
      cases hsame
      exact List.forall_mem_cons.2
        ⟨restored_of_toJson? hvalue, restored_of_toMembers? hrest⟩

end

end Document

end SearchPipeline.Json
