import PrefixFlow.Proofs.ConfigLaws
import PrefixFlow.Script.Parse

/-!
# Scripts and their bytes

Reading is the inverse of the byte form. Not every script survives the way out and back: the code of
a push may say another length than that of its data. `WellFormed` scripts are those that do survive.

* `Instruction.Written` relates an instruction to its bytes; it is what reading recognises
  (`Written.parse`, `exists_written_of_parse`) and what the byte form writes (`Written.bytes`), and
  the well-formed instructions are those that can be written (`wellFormed_iff`);
* `Instruction.CutShort` are the bytes that end inside an instruction;
* `exists_bytes_of_wellFormed` is the streaming law, `wellFormed_of_parse` its converse, and
  `exists_error_iff` says what reading refuses;
* `parse_bytes_inverse` puts them together.
-/

namespace PrefixFlow

variable {i : Instruction} {s t : Script} {c : UInt8} {d data rest bs : Bytes} {e : Error}

/-! ## First bytes -/

/-- The codes of the pushes whose length stands in a field, each with the width of the field. -/
def sizedPushes : List (Nat × Nat) := [(0x4c, 1), (0x4d, 2), (0x4e, 4)]

theorem mem_sizedPushes_iff {code width : Nat} : (code, width) ∈ sizedPushes ↔
    (code = 0x4c ∧ width = 1) ∨ (code = 0x4d ∧ width = 2) ∨ (code = 0x4e ∧ width = 4) := by
  simp [sizedPushes]

theorem ofByte_eq_bare_iff : PushForm.ofByte c = .bare ↔ c.toNat = 0 ∨ 0x4f ≤ c.toNat := by
  grind [PushForm.ofByte, maxDirectPush]

theorem ofByte_eq_direct_iff {n : Nat} :
    PushForm.ofByte c = .direct n ↔ c.toNat = n ∧ 1 ≤ n ∧ n ≤ 0x4b := by
  grind [PushForm.ofByte, maxDirectPush]

theorem ofByte_eq_sized_iff {width : Nat} :
    PushForm.ofByte c = .sized width ↔ (c.toNat, width) ∈ sizedPushes := by
  grind [PushForm.ofByte, maxDirectPush, mem_sizedPushes_iff]

/-! ## Instructions that can be written -/

/-- An opcode that is no push, or a push whose code is right for its length. -/
def Instruction.WellFormed : Instruction → Prop
  | op code => code = 0 ∨ 0x4f ≤ code ∧ code ≤ 0xff
  | push code d =>
    (1 ≤ code ∧ code ≤ 0x4b ∧ code = d.length) ∨ (code = 0x4c ∧ d.length < 2 ^ 8) ∨
      (code = 0x4d ∧ d.length < 2 ^ 16) ∨ (code = 0x4e ∧ d.length < 2 ^ 32)

instance (i : Instruction) : Decidable i.WellFormed :=
  match i with
  | .op _ => inferInstanceAs (Decidable (_ ∨ _))
  | .push _ _ => inferInstanceAs (Decidable (_ ∨ _))

/-- All instructions are well-formed. -/
def Script.WellFormed (s : Script) : Prop := ∀ i ∈ s, i.WellFormed

instance (s : Script) : Decidable s.WellFormed :=
  inferInstanceAs (Decidable (∀ i ∈ s, i.WellFormed))

/-- The bytes of an instruction: its code, a length if the code asks for one, and the data. -/
inductive Instruction.Written : Instruction → Bytes → Prop
  | bare (c : UInt8) (hc : PushForm.ofByte c = .bare) : Written (.op c.toNat) [c]
  | direct (c : UInt8) (d : Bytes) (hc : PushForm.ofByte c = .direct d.length) :
    Written (.push c.toNat d) (c :: d)
  | sized (c : UInt8) (field d : Bytes) (hc : PushForm.ofByte c = .sized field.length)
      (hfield : Bytes.toNatLE field = d.length) :
    Written (.push c.toNat d) (c :: (field ++ d))

/-- Bytes that end inside an instruction: in its data, or in the length in front of it. -/
inductive Instruction.CutShort : Bytes → Prop
  | direct (c : UInt8) (d : Bytes) (hc : 1 ≤ c.toNat ∧ c.toNat ≤ 0x4b) (hd : d.length < c.toNat) :
    CutShort (c :: d)
  | length (c : UInt8) (width : Nat) (field : Bytes) (hc : (c.toNat, width) ∈ sizedPushes)
      (hfield : field.length < width) :
    CutShort (c :: field)
  | sized (c : UInt8) (width : Nat) (field d : Bytes) (hc : (c.toNat, width) ∈ sizedPushes)
      (hfield : field.length = width) (hd : d.length < Bytes.toNatLE field) :
    CutShort (c :: (field ++ d))

/-- A code between zero and 255 is the number of a byte. -/
theorem exists_toNat_eq {code : Int} (h : 0 ≤ code ∧ code ≤ 0xff) :
    ∃ c : UInt8, (c.toNat : Int) = code := by
  refine ⟨UInt8.ofNat code.toNat, ?_⟩
  rw [UInt8.toNat_ofNat']
  omega

/-- The length field of a push. -/
theorem toNatLE_field {width n : Nat} (h : n < 256 ^ width) :
    Bytes.toNatLE (Bytes.ofNatLE width n) = n := by
  rw [Bytes.toNatLE_ofNatLE]
  exact Nat.mod_eq_of_lt h

theorem exists_written_sized {code : Int} (width : Nat)
    (hcode : (code.toNat, width) ∈ sizedPushes) (hpos : 0 ≤ code) (hd : d.length < 256 ^ width) :
    ∃ bs, (Instruction.push code d).Written bs := by
  have hrange : code ≤ 0xff := by
    have := mem_sizedPushes_iff.mp hcode
    omega
  obtain ⟨c, rfl⟩ := exists_toNat_eq ⟨hpos, hrange⟩
  refine ⟨_, .sized c (Bytes.ofNatLE width d.length) d ?_ (toNatLE_field hd)⟩
  rw [Bytes.length_ofNatLE, ofByte_eq_sized_iff]
  exact hcode

/-- The well-formed instructions are those that have bytes. -/
theorem wellFormed_iff : i.WellFormed ↔ ∃ bs, i.Written bs := by
  constructor
  · intro h
    cases i with
    | op code =>
      change code = 0 ∨ _ at h
      obtain ⟨c, rfl⟩ := exists_toNat_eq (by omega : 0 ≤ code ∧ code ≤ 0xff)
      exact ⟨_, .bare c (ofByte_eq_bare_iff.mpr (by omega))⟩
    | push code d =>
      rcases h with ⟨hlow, hhigh, hcode⟩ | ⟨rfl, hd⟩ | ⟨rfl, hd⟩ | ⟨rfl, hd⟩
      · obtain ⟨c, rfl⟩ := exists_toNat_eq (by omega : 0 ≤ code ∧ code ≤ 0xff)
        exact ⟨_, .direct c d (ofByte_eq_direct_iff.mpr (by omega))⟩
      · exact exists_written_sized 1 (by decide) (by decide) (by omega)
      · exact exists_written_sized 2 (by decide) (by decide) (by omega)
      · exact exists_written_sized 4 (by decide) (by decide) (by omega)
  · rintro ⟨bs, h⟩
    cases h with
    | bare c hc =>
      have hc := ofByte_eq_bare_iff.mp hc
      have hlt := c.toNat_lt
      show (c.toNat : Int) = 0 ∨ _
      omega
    | direct c d hc =>
      have hc := ofByte_eq_direct_iff.mp hc
      refine .inl ?_
      omega
    | sized c field d hc hfield =>
      have hlt := Bytes.toNatLE_lt field
      rw [hfield] at hlt
      have hc := mem_sizedPushes_iff.mp (ofByte_eq_sized_iff.mp hc)
      refine .inr ?_
      -- the width that goes with the code bounds the length
      rcases hc with ⟨hcode, hwidth⟩ | ⟨hcode, hwidth⟩ | ⟨hcode, hwidth⟩
      · rw [hwidth] at hlt
        exact .inl ⟨by omega, hlt⟩
      · rw [hwidth] at hlt
        exact .inr (.inl ⟨by omega, hlt⟩)
      · rw [hwidth] at hlt
        exact .inr (.inr ⟨by omega, hlt⟩)

/-! ## One instruction -/

theorem takeData_append (c : UInt8) (d rest : Bytes) :
    Instruction.takeData c d.length (d ++ rest) = .ok (.push c.toNat d, rest) := by
  simp [Instruction.takeData]

theorem takeData_eq_ok_iff {size : Nat} : Instruction.takeData c size data = .ok (i, rest) ↔
    ∃ d, d.length = size ∧ data = d ++ rest ∧ i = .push c.toNat d := by
  constructor
  · intro h
    rw [Instruction.takeData] at h
    split at h
    · rename_i hlen
      cases h
      exact ⟨_, hlen, (List.take_append_drop size data).symm, rfl⟩
    · cases h
  · rintro ⟨d, rfl, rfl, rfl⟩
    exact takeData_append c d rest

theorem takeData_eq_error_iff {size : Nat} :
    (∃ e, Instruction.takeData c size data = .error e) ↔ data.length < size := by
  rw [Instruction.takeData, List.length_take]
  split
  · refine iff_of_false ?_ (by omega)
    rintro ⟨e, h⟩
    cases h
  · exact iff_of_true ⟨_, rfl⟩ (by omega)

/-- Reading recognises what is written, whatever follows. -/
theorem Instruction.Written.parse (h : i.Written bs) (rest : Bytes) :
    Instruction.parse (bs ++ rest) = .ok (i, rest) := by
  cases h with
  | bare c hc => simp [Instruction.parse, hc]
  | direct c d hc => simp [Instruction.parse, hc, takeData_append]
  | sized c field d hc hfield => simp [Instruction.parse, hc, hfield, takeData_append]

/-- Reading recognises nothing else. -/
theorem exists_written_of_parse (h : Instruction.parse data = .ok (i, rest)) :
    ∃ bs, i.Written bs ∧ data = bs ++ rest := by
  cases data with
  | nil => cases h
  | cons c data =>
    rw [Instruction.parse] at h
    split at h
    · rename_i hc
      cases h
      exact ⟨[c], .bare c hc, rfl⟩
    · rename_i size hc
      obtain ⟨d, rfl, rfl, rfl⟩ := takeData_eq_ok_iff.mp h
      exact ⟨c :: d, .direct c d hc, rfl⟩
    · rename_i width hc
      simp only at h
      split at h
      · rename_i hwidth
        obtain ⟨d, hd, hdrop, rfl⟩ := takeData_eq_ok_iff.mp h
        refine ⟨_, .sized c (data.take width) d (by rw [hwidth]; exact hc) hd.symm, ?_⟩
        rw [List.cons_append, List.append_assoc, ← hdrop, List.take_append_drop]
      · cases h

theorem codeByte_toNat (c : UInt8) : Instruction.codeByte c.toNat = .ok c := by
  have hlt := c.toNat_lt
  rw [Instruction.codeByte, if_pos (by omega), Int.toNat_natCast, UInt8.ofNat_toNat]

theorem lengthField_toNatLE (field : Bytes) (fault : Error) :
    Instruction.lengthField field.length (Bytes.toNatLE field) fault = .ok field := by
  rw [Instruction.lengthField, if_pos (Bytes.toNatLE_lt field), Bytes.ofNatLE_toNatLE]

/-- A push whose code asks for a field is written with the field. -/
theorem bytes_sizedPush {width : Nat} {field : Bytes} (hc : (c.toNat, width) ∈ sizedPushes)
    (hfield : ∀ fault, Instruction.lengthField width d.length fault = .ok field) :
    (Instruction.push c.toNat d).bytes = .ok (c :: (field ++ d)) := by
  rw [Instruction.bytes, codeByte_toNat]
  -- the code picks the branch, and the branch the width
  rcases mem_sizedPushes_iff.mp hc with ⟨hcode, rfl⟩ | ⟨hcode, rfl⟩ | ⟨hcode, rfl⟩ <;>
    simp [hcode, maxDirectPush, Opcode.code, bind, Except.bind, hfield, pure, Except.pure]

/-- The byte form writes it. -/
theorem Instruction.Written.bytes (h : i.Written bs) : i.bytes = .ok bs := by
  cases h with
  | bare c hc =>
    rw [Instruction.bytes, codeByte_toNat]
    rfl
  | direct c d hc =>
    have hc := ofByte_eq_direct_iff.mp hc
    rw [Instruction.bytes, codeByte_toNat]
    show (if (c.toNat : Int) ≤ maxDirectPush then _ else _) = _
    rw [if_pos (by simp only [maxDirectPush]; omega)]
    rfl
  | sized c field d hc hfield =>
    refine bytes_sizedPush (ofByte_eq_sized_iff.mp hc) (fun fault => ?_)
    rw [← hfield]
    exact lengthField_toNatLE field fault

/-- Reading fails on bytes that end too early. -/
theorem parse_eq_error_iff (hdata : data ≠ []) :
    (∃ e, Instruction.parse data = .error e) ↔ Instruction.CutShort data := by
  constructor
  · rintro ⟨e, h⟩
    cases data with
    | nil => exact absurd rfl hdata
    | cons c data =>
      rw [Instruction.parse] at h
      split at h
      · cases h
      · rename_i size hc
        obtain ⟨rfl, hc⟩ := ofByte_eq_direct_iff.mp hc
        exact .direct c data hc (takeData_eq_error_iff.mp ⟨e, h⟩)
      · rename_i width hc
        have hc := ofByte_eq_sized_iff.mp hc
        simp only at h
        split at h
        · rename_i hwidth
          have hcut := takeData_eq_error_iff.mp ⟨e, h⟩
          rw [← List.take_append_drop width data]
          exact .sized c width _ _ hc hwidth hcut
        · rename_i hwidth
          rw [List.length_take] at hwidth
          exact .length c width data hc (by omega)
  · intro h
    cases h with
    | direct c d hc hd =>
      rw [Instruction.parse, ofByte_eq_direct_iff.mpr ⟨rfl, hc⟩]
      exact takeData_eq_error_iff.mpr hd
    | length c width field hc hfield =>
      have htake : (field.take width).length ≠ width := by
        rw [List.length_take]
        omega
      rw [Instruction.parse, ofByte_eq_sized_iff.mpr hc]
      exact ⟨_, if_neg htake⟩
    | sized c width field d hc hfield hd =>
      subst hfield
      rw [Instruction.parse, ofByte_eq_sized_iff.mpr hc]
      simp only [List.take_left, List.drop_left, if_true]
      exact takeData_eq_error_iff.mpr hd

/-! ## Whole scripts -/

theorem parse_nil : Script.parse [] = .ok [] := by
  rw [Script.parse, if_pos rfl]

theorem parse_of_ok (h : Instruction.parse data = .ok (i, rest)) :
    Script.parse data = (Script.parse rest).map (i :: ·) := by
  have hdata : data ≠ [] := by
    rintro rfl
    cases h
  rw [Script.parse, if_neg hdata]
  split
  · rename_i hfail
    rw [h] at hfail
    cases hfail
  · rename_i j rest' hread
    rw [h] at hread
    cases hread
    cases Script.parse rest with
    | error e => rfl
    | ok s => rfl

theorem parse_of_error (hdata : data ≠ []) (h : Instruction.parse data = .error e) :
    Script.parse data = .error e := by
  rw [Script.parse, if_neg hdata]
  split
  · rename_i hfail
    rw [h] at hfail
    cases hfail
    rfl
  · rename_i hread
    rw [h] at hread
    cases hread

theorem bytes_cons {head tail : Bytes} (hi : i.bytes = .ok head) (hs : s.bytes = .ok tail) :
    Script.bytes (i :: s) = .ok (head ++ tail) := by
  obtain ⟨parts, hparts, htail⟩ := bind_eq_ok_iff.mp hs
  cases htail
  rw [Script.bytes, List.mapM_cons, hi, hparts]
  rfl

/-- The streaming law: a well-formed script has bytes, and reading takes it off the front of
whatever follows them. -/
theorem exists_bytes_of_wellFormed (h : s.WellFormed) :
    ∃ bs, s.bytes = .ok bs ∧
      ∀ rest, Script.parse (bs ++ rest) = (Script.parse rest).map (s ++ ·) := by
  induction s with
  | nil =>
    refine ⟨[], rfl, fun rest => ?_⟩
    cases h : Script.parse rest <;> simp [h, Except.map]
  | cons i s ih =>
    obtain ⟨hi, hs⟩ := List.forall_mem_cons.mp h
    obtain ⟨head, hwritten⟩ := wellFormed_iff.mp hi
    obtain ⟨tail, htail, hparse⟩ := ih hs
    refine ⟨head ++ tail, bytes_cons hwritten.bytes htail, fun rest => ?_⟩
    rw [List.append_assoc, parse_of_ok (hwritten.parse (tail ++ rest)), hparse]
    cases Script.parse rest <;> rfl

theorem parse_of_bytes (hs : s.WellFormed) (h : s.bytes = .ok bs) (rest : Bytes) :
    Script.parse (bs ++ rest) = (Script.parse rest).map (s ++ ·) := by
  obtain ⟨bs', hbs', hparse⟩ := exists_bytes_of_wellFormed hs
  cases hbs'.symm.trans h
  exact hparse rest

/-- Reading undoes writing. -/
theorem parse_bytes (hs : s.WellFormed) (h : s.bytes = .ok bs) : Script.parse bs = .ok s := by
  have hparse := parse_of_bytes hs h []
  rw [List.append_nil, parse_nil] at hparse
  rw [hparse, Except.map, List.append_nil]

/-- Writing undoes reading. -/
theorem wellFormed_of_parse (h : Script.parse bs = .ok s) : s.WellFormed ∧ s.bytes = .ok bs := by
  -- along the reading of the script
  fun_induction Script.parse bs generalizing s with
  | case1 =>
    cases h
    exact ⟨nofun, rfl⟩
  | case2 => cases h
  | case3 data hdata i rest hread ih =>
    obtain ⟨t, hrest, hs⟩ := bind_eq_ok_iff.mp h
    cases hs
    obtain ⟨ht, hbytes⟩ := ih hrest
    obtain ⟨head, hwritten, rfl⟩ := exists_written_of_parse hread
    have hi := wellFormed_iff.mpr ⟨head, hwritten⟩
    exact ⟨List.forall_mem_cons.mpr ⟨hi, ht⟩, bytes_cons hwritten.bytes hbytes⟩

/-- A script has no more instructions than bytes. -/
theorem length_le_of_parse (h : Script.parse bs = .ok s) : s.length ≤ bs.length := by
  fun_induction Script.parse bs generalizing s with
  | case1 =>
    cases h
    exact Nat.le_refl 0
  | case2 => cases h
  | case3 data hdata i rest hread ih =>
    obtain ⟨t, hrest, hs⟩ := bind_eq_ok_iff.mp h
    cases hs
    have := ih hrest
    have := Instruction.parse_length hread
    rw [List.length_cons]
    omega

/-- Well-formed scripts of the same bytes are the same. -/
theorem eq_of_bytes_eq (hs : s.WellFormed) (ht : t.WellFormed) (h : s.bytes = t.bytes) : s = t := by
  obtain ⟨bs, hbs, -⟩ := exists_bytes_of_wellFormed hs
  have hread := parse_bytes ht (h.symm.trans hbs)
  rw [parse_bytes hs hbs] at hread
  exact Except.ok.inj hread

/-- What is refused are whole instructions and one more that is cut short. -/
theorem exists_error_iff : (∃ e, Script.parse bs = .error e) ↔
    ∃ s whole tail, Script.WellFormed s ∧ s.bytes = .ok whole ∧ Instruction.CutShort tail ∧
      bs = whole ++ tail := by
  constructor
  · rintro ⟨e, h⟩
    fun_induction Script.parse bs with
    | case1 => cases h
    | case2 data hdata e' hread =>
      exact ⟨[], [], data, nofun, rfl, (parse_eq_error_iff hdata).mp ⟨e', hread⟩, rfl⟩
    | case3 data hdata i rest hread ih =>
      rcases bind_eq_error_iff.mp h with hrest | ⟨t, -, ht⟩
      · obtain ⟨s, whole, tail, hs, hwhole, hcut, rfl⟩ := ih hrest
        obtain ⟨head, hwritten, rfl⟩ := exists_written_of_parse hread
        have hi := wellFormed_iff.mpr ⟨head, hwritten⟩
        exact ⟨i :: s, head ++ whole, tail, List.forall_mem_cons.mpr ⟨hi, hs⟩,
          bytes_cons hwritten.bytes hwhole, hcut, (List.append_assoc ..).symm⟩
      · cases ht
  · rintro ⟨s, whole, tail, hs, hwhole, hcut, rfl⟩
    have htail : tail ≠ [] := by
      rintro rfl
      cases hcut
    obtain ⟨e, he⟩ := (parse_eq_error_iff htail).mpr hcut
    rw [parse_of_bytes hs hwhole, parse_of_error htail he]
    exact ⟨e, rfl⟩

/-- Writing takes the well-formed scripts one-to-one to the bytes that can be read, and reading
takes them back. It comes to an end on all bytes; what cannot be read is a well-formed script with
one more instruction, cut short, behind it. Both keep concatenations. -/
theorem parse_bytes_inverse :
    (∀ s : Script, s.WellFormed → ∃ bs, s.bytes = .ok bs ∧ Script.parse bs = .ok s) ∧
      (∀ bs s, Script.parse bs = .ok s → s.WellFormed ∧ s.bytes = .ok bs) ∧
      (∀ bs, (∃ s, Script.parse bs = .ok s ∧ s.length ≤ bs.length) ∨
        ∃ e, Script.parse bs = .error e) ∧
      (∀ bs, (∃ e, Script.parse bs = .error e) ↔
        ∃ s whole tail, Script.WellFormed s ∧ s.bytes = .ok whole ∧ Instruction.CutShort tail ∧
          bs = whole ++ tail) ∧
      (∀ s t : Script, s.WellFormed → t.WellFormed → (s = t ↔ s.bytes = t.bytes)) ∧
      ∀ s t : Script, s.WellFormed → t.WellFormed → ∃ as bs, s.bytes = .ok as ∧
        t.bytes = .ok bs ∧ Script.parse (as ++ bs) = .ok (s ++ t) := by
  refine ⟨fun s hs => ?_, fun bs s => wellFormed_of_parse, fun bs => ?_,
    fun bs => exists_error_iff, fun s t hs ht => ⟨congrArg Script.bytes, eq_of_bytes_eq hs ht⟩,
    fun s t hs ht => ?_⟩
  · obtain ⟨bs, hbs, -⟩ := exists_bytes_of_wellFormed hs
    exact ⟨bs, hbs, parse_bytes hs hbs⟩
  · cases h : Script.parse bs with
    | ok s => exact .inl ⟨s, rfl, length_le_of_parse h⟩
    | error e => exact .inr ⟨e, rfl⟩
  · obtain ⟨as, has, hparse⟩ := exists_bytes_of_wellFormed hs
    obtain ⟨bs, hbs, -⟩ := exists_bytes_of_wellFormed ht
    refine ⟨as, bs, has, hbs, ?_⟩
    rw [hparse, parse_bytes ht hbs]
    rfl

/-- Two bytes behind a longer code than they need, and the same push without its last byte. -/
theorem parse_bytes_inverse_of_pushes :
    Script.WellFormed [.op 0xac, .push 0x4c [7, 8]] ∧
      Script.bytes [.op 0xac, .push 0x4c [7, 8]] = .ok [0xac, 0x4c, 2, 7, 8] ∧
      Script.parse [0xac, 0x4c, 2, 7, 8] = .ok [.op 0xac, .push 0x4c [7, 8]] ∧
      (∃ e, Script.parse [0xac, 0x4c, 2, 7] = .error e) ∧
      Script.bytes [.push 1 [7]] ≠ Script.bytes [.push 0x4c [7]] := by
  obtain ⟨hround, -, -, herror, hinj, -⟩ := parse_bytes_inverse
  have hs : Script.WellFormed [.op 0xac, .push 0x4c [7, 8]] := by decide
  have hbytes : Script.bytes [.op 0xac, .push 0x4c [7, 8]] = .ok [0xac, 0x4c, 2, 7, 8] := rfl
  obtain ⟨bs, hbs, hparse⟩ := hround _ hs
  cases hbs.symm.trans hbytes
  refine ⟨hs, hbytes, hparse, ?_, fun h => ?_⟩
  · refine (herror _).mpr ⟨[.op 0xac], [0xac], [0x4c, 2, 7], by decide, rfl, ?_, rfl⟩
    exact .sized 0x4c 1 [2] [7] (by decide) rfl (by decide)
  · exact absurd ((hinj _ _ (by decide) (by decide)).mpr h) (by decide)

end PrefixFlow
