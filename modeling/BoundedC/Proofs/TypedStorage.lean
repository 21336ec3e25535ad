import BoundedC.Proofs.History

/-!
# Typed storage

A value is stored as the bytes that stand for it in a place of the pointee, and read back from them.
Both ways round nothing is lost: values come back as they were converted, bytes as they were.

* `CType.isScalar` : the types of stored values;
* `Value.exists_encode`, `Value.encode_of_decode` : values and bytes;
* `Arena.load_of_store`, `Arena.store_of_load` : storing and loading through one pointer;
* `Arena.byte?_of_store`, `Arena.load_of_store_apart` : what a store leaves alone;
* `round_trips` : all of it, for any arena, pointer and value.
-/

namespace BoundedC

/-- Whether values of the type are stored: `void` has none, and an array is stored by elements. -/
def CType.isScalar : CType → Bool
  | int | char | pointer _ => true
  | void | array .. => false

theorem CType.size_pos_of_isScalar {t : CType} (h : t.isScalar = true) : 0 < t.size := by
  cases t with
  | int | char => decide
  | pointer t => exact Nat.zero_lt_succ 7
  | void | array => cases h

/-- An offset of 32 bits is read back. -/
theorem toInt_ofInt_of_fits {n : Int} (h : fitsOffset n = true) : (Int32.ofInt n).toInt = n := by
  obtain ⟨hlow, hhigh⟩ := of_decide_eq_true h
  rw [Int32.toInt_ofInt]
  exact Int.bmod_eq_of_le (Int.le_trans (by decide) hlow) (Int.lt_of_lt_of_le hhigh (by decide))

theorem fitsOffset_zero : fitsOffset 0 = true := rfl

theorem fitsOffset_toInt (n : Int32) : fitsOffset n.toInt = true :=
  decide_eq_true ⟨n.le_toInt, n.toInt_lt⟩

namespace Value

variable {v w : Value} {t : CType} {bytes : List UInt8}

/-- The value can be stored: if it is a pointer, 32 bits hold its offset. -/
def IsStorable (v : Value) : Prop := ∀ p, v = .pointer p → fitsOffset p.offset = true

theorem isStorable_int (n : Int32) : (int n).IsStorable := nofun

theorem isStorable_char (c : Int8) : (char c).IsStorable := nofun

theorem isStorable_pointer {p : Pointer} (h : fitsOffset p.offset = true) :
    (pointer p).IsStorable := by
  rintro _ ⟨⟩
  exact h

/-! ## Conversion -/

/-- Only scalars are converted to. -/
theorem isScalar_of_convert (h : v.convert t = .ok w) : t.isScalar = true := by
  cases t with
  | int | char | pointer => rfl
  | void | array => cases v <;> cases h

/-- A converted value needs no further conversion. -/
theorem convert_of_convert (h : v.convert t = .ok w) : w.convert t = .ok w := by
  cases t with
  | int | char => cases v <;> cases h <;> rfl
  | pointer t =>
    cases v with
    | pointer p =>
      cases h
      rfl
    | int | char =>
      simp only [convert] at h
      split at h
      · cases h
        rfl
      · cases h
  | void | array => cases v <;> cases h

theorem IsStorable.convert (hv : v.IsStorable) (h : v.convert t = .ok w) : w.IsStorable := by
  cases t with
  | int | char => cases v <;> cases h <;> nofun
  | pointer t =>
    cases v with
    | pointer p =>
      cases h
      exact isStorable_pointer (hv p rfl)
    | int | char =>
      simp only [Value.convert] at h
      split at h
      · cases h
        exact isStorable_pointer fitsOffset_zero
      · cases h
  | void | array => cases v <;> cases h

/-! ## Values as bytes and back -/

theorem encode_of_convert (h : v.convert t = .ok w) : v.encode t = w.encode t := by
  unfold encode
  rw [h, convert_of_convert h]

theorem decode_wordBytes_int (n : Int32) : decode .int (wordBytes n.toUInt32) = .ok (int n) :=
  (congrArg (fun w : UInt32 => (Except.ok (int w.toInt32) : Except MemoryFault Value))
    (wordOfBytes_wordBytes n.toUInt32)).trans (by rw [Int32.toInt32_toUInt32])

theorem decode_char (c : Int8) : decode .char [c.toUInt8] = .ok (char c) :=
  congrArg (fun c => (Except.ok (char c) : Except MemoryFault Value)) c.toInt8_toUInt8

/-- The two words of a pointer are read back. -/
theorem decode_wordBytes (buffer offset : UInt32) (t : CType) :
    decode (.pointer t) (wordBytes buffer ++ wordBytes offset) =
      .ok (.pointer ⟨⟨buffer⟩, offset.toInt32.toInt, t⟩) :=
  congrArg₂ (fun buffer offset : UInt32 =>
      (Except.ok (.pointer ⟨⟨buffer⟩, offset.toInt32.toInt, t⟩) : Except MemoryFault Value))
    (wordOfBytes_wordBytes buffer) (wordOfBytes_wordBytes offset)

theorem exists_encode_pointer {q : Pointer} (h : fitsOffset q.offset = true) :
    ∃ bytes, encode (.pointer q) (.pointer q.pointee) = .ok bytes ∧
      decode (.pointer q.pointee) bytes = .ok (.pointer q) := by
  refine ⟨wordBytes q.buffer.index ++ wordBytes (Int32.ofInt q.offset).toUInt32, ?_, ?_⟩
  · simp [encode, convert, Pointer.retyped, h, bind, Except.bind, pure, Except.pure]
  · rw [decode_wordBytes, Int32.toInt32_toUInt32, toInt_ofInt_of_fits h]

/-- A value that has a conversion and can be stored is read back as it was converted. -/
theorem exists_encode (hv : v.IsStorable) (h : v.convert t = .ok w) :
    ∃ bytes, v.encode t = .ok bytes ∧ decode t bytes = .ok w := by
  have hw := hv.convert h
  have hconverted := convert_of_convert h
  rw [encode_of_convert h]
  cases t with
  | int =>
    cases w with
    | int n => exact ⟨wordBytes n.toUInt32, rfl, decode_wordBytes_int n⟩
    | char | pointer => cases hconverted
  | char =>
    cases w with
    | char c => exact ⟨[c.toUInt8], rfl, decode_char c⟩
    | int | pointer => cases hconverted
  | pointer t =>
    cases w with
    | pointer q =>
      obtain ⟨buffer, offset, pointee⟩ := q
      cases hconverted
      exact exists_encode_pointer (hw _ rfl)
    | int | char =>
      simp only [convert] at hconverted
      split at hconverted <;> cases hconverted
  | void | array => cases w <;> cases hconverted

/-- A pointer that was given bytes can be stored. -/
theorem isStorable_of_encode (hv : v.convert t = .ok w) (h : v.encode t = .ok bytes) :
    w.IsStorable := by
  rintro p rfl
  unfold encode at h
  rw [hv] at h
  simp only [bind, Except.bind] at h
  split at h
  · assumption
  · cases h

theorem decode_of_encode (hv : v.convert t = .ok w) (h : v.encode t = .ok bytes) :
    decode t bytes = .ok w := by
  obtain ⟨bytes', hencode, hdecode⟩ :=
    exists_encode (isStorable_of_encode hv h) (convert_of_convert hv)
  rw [← encode_of_convert hv, h] at hencode
  cases hencode
  exact hdecode

/-- What is read stands for the bytes it was read from. -/
theorem encode_of_decode (h : decode t bytes = .ok v) : v.encode t = .ok bytes := by
  unfold decode at h
  split at h
  · cases h
  · split at h
    · cases h
      exact congrArg Except.ok (wordBytes_wordOfBytes ..)
    · cases h
      rfl
    · rename_i a b c d e f g k _
      cases h
      have hfits := fitsOffset_toInt (wordOfBytes e f g k).toInt32
      simp only [encode, convert, Pointer.retyped, bind, Except.bind, pure, Except.pure, hfits, if_pos,
        Int32.ofInt_toInt, UInt32.toUInt32_toInt32, wordBytes_wordOfBytes]
      rfl
    · cases h

theorem convert_of_decode (h : decode t bytes = .ok v) : v.convert t = .ok v := by
  unfold decode at h
  split at h
  · cases h
  · split at h <;> cases h <;> rfl

/-- Whatever the bytes are, a pointer read from them can be stored. -/
theorem isStorable_of_decode (h : decode t bytes = .ok v) : v.IsStorable := by
  unfold decode at h
  split at h
  · cases h
  · split at h
    · cases h
      exact isStorable_int _
    · cases h
      exact isStorable_char _
    · cases h
      exact isStorable_pointer (fitsOffset_toInt _)
    · cases h

theorem exists_decode_of_isScalar (ht : t.isScalar = true) (h : bytes.length = t.size) :
    ∃ v, decode t bytes = .ok v := by
  refine exists_decode h ?_ ?_
  · cases t with
    | array => cases ht
    | _ => rfl
  · rintro rfl
    cases ht

end Value

/-! ## Storing and loading -/

namespace Arena

variable {a b : Arena} {id : BufferId} {p : Pointer} {v stored : Value}

def byte? (a : Arena) (id : BufferId) (position : Nat) : Option UInt8 :=
  (a.get? id).bind (·.bytes[position]?)

/-- An access to some bytes is not one to the null buffer. -/
theorem ne_null_of_start {offset : Int} {width start : Nat}
    (h : a.start id offset width = .ok start) (hwidth : 0 < width) : id ≠ .null := by
  rintro rfl
  obtain ⟨c, hget, hpos, hend, -⟩ := start_eq_ok_iff.1 h
  cases hget
  have : Buffer.null.size = 0 := rfl
  omega

/-- Bytes are read back from where they were put. -/
theorem read_of_overwrite {id : BufferId} {offset : Int} {bytes : List UInt8} {start : Nat}
    (h : a.start id offset bytes.length = .ok start) (hbytes : bytes ≠ []) :
    (a.overwrite id start bytes).read id offset bytes.length = .ok bytes := by
  have hid := ne_null_of_start h (List.length_pos_iff.2 hbytes)
  obtain ⟨b, hget, hpos, hend, rfl⟩ := start_eq_ok_iff.1 h
  have hget' : (a.overwrite id offset.toNat bytes).get? id =
      some ⟨setBytes b.bytes offset.toNat bytes, b.owner⟩ := by
    rw [get?_overwrite_self a hid, hget, Option.map_some]
  have hfits : offset.toNat + bytes.length ≤ b.bytes.size := by
    have : b.size = b.bytes.size := rfl
    omega
  have hstart : (a.overwrite id offset.toNat bytes).start id offset bytes.length =
      .ok offset.toNat := by
    refine start_eq_ok_iff.2 ⟨_, hget', hpos, ?_, rfl⟩
    rwa [Buffer.size, size_setBytes]
  rw [read_of_start hstart hget']
  refine congrArg Except.ok (List.ext_getElem? fun k => ?_)
  rw [Array.getElem?_toList, Array.getElem?_extract, size_setBytes, Nat.min_eq_left hfits,
    Nat.add_sub_cancel_left]
  split
  · rw [getElem?_setBytes hfits, if_pos (by omega), Nat.add_sub_cancel_left]
    rw [List.getElem?_eq_getElem ‹_›, Option.some_or]
  · rw [List.getElem?_eq_none (by omega)]

/-- Putting back the bytes that are there changes nothing. -/
theorem setBytes_extract {bytes : Array UInt8} {start width : Nat} (h : start + width ≤ bytes.size) :
    setBytes bytes start (bytes.extract start (start + width)).toList = bytes := by
  have hlength : (bytes.extract start (start + width)).toList.length = width := by
    rw [Array.length_toList, Array.size_extract]
    omega
  apply Array.ext_getElem?
  intro position
  rw [getElem?_setBytes (by rwa [hlength]), Array.getElem?_toList, Array.getElem?_extract]
  by_cases hstart : start ≤ position
  · rw [if_pos hstart]
    split
    · rw [Nat.add_sub_cancel' hstart, Option.or_self]
    · rfl
  · rw [if_neg hstart, Option.none_or]

theorem overwrite_of_read {offset : Int} {width start : Nat} {bytes : List UInt8}
    (hstart : a.start id offset width = .ok start) (hread : a.read id offset width = .ok bytes) :
    a.overwrite id start bytes = a := by
  obtain ⟨c, hget, hpos, hend, rfl⟩ := start_eq_ok_iff.1 hstart
  rw [read_of_start hstart hget] at hread
  cases hread
  have hsame : setBytes c.bytes offset.toNat
      (c.bytes.extract offset.toNat (offset.toNat + width)).toList = c.bytes :=
    setBytes_extract (by
      have : c.size = c.bytes.size := rfl
      omega)
  unfold overwrite
  unfold get? at hget
  cases hslot : slot? id with
  | none => rfl
  | some i =>
    rw [hslot] at hget
    refine congrArg Arena.mk (Array.ext Array.size_modify fun j _ hj => ?_)
    rw [Array.getElem_modify]
    split
    · rename_i hij
      subst hij
      simp only [Array.getElem?_eq_getElem hj, Option.join_some] at hget
      rw [hget]
      exact congrArg (fun bytes => some (⟨bytes, c.owner⟩ : Buffer)) hsame
    · rfl

theorem byte?_of_overwrite {offset : Int} {bytes : List UInt8} {start : Nat}
    (h : a.start id offset bytes.length = .ok start) {other : BufferId} {position : Nat}
    (hother : other = id → position < offset ∨ offset + bytes.length ≤ position) :
    (a.overwrite id start bytes).byte? other position = a.byte? other position := by
  obtain ⟨c, hget, hpos, hend, rfl⟩ := start_eq_ok_iff.1 h
  unfold byte?
  by_cases hid : other = id
  · subst hid
    by_cases hnull : other = .null
    · subst hnull
      rfl
    · have hfits : offset.toNat + bytes.length ≤ c.bytes.size := by
        have : c.size = c.bytes.size := rfl
        omega
      rw [get?_overwrite_self a hnull, hget]
      show (setBytes c.bytes offset.toNat bytes)[position]? = c.bytes[position]?
      rw [getElem?_setBytes hfits]
      split
      · rw [List.getElem?_eq_none (by have := hother rfl; omega), Option.none_or]
      · rw [Option.none_or]
  · rw [get?_overwrite_of_ne a hid]

/-- A store that succeeds converts, encodes and writes. -/
theorem store_eq_ok_iff :
    a.store p v = (.ok stored, b) ↔ v.convert p.pointee = .ok stored ∧
      ∃ bytes start, stored.encode p.pointee = .ok bytes ∧
        a.start p.buffer p.offset bytes.length = .ok start ∧ b = a.overwrite p.buffer start bytes := by
  constructor
  · intro h
    obtain ⟨bytes, hencode, hwrite⟩ := store_eq_ok h
    obtain ⟨start, hstart, hb⟩ := write_eq_ok hwrite
    refine ⟨?_, bytes, start, hencode, hstart, hb⟩
    unfold store at h
    split at h
    · cases h
    · rename_i w hconvert
      rw [hconvert]
      split at h
      · cases h
      · rename_i bytes' hencode'
        rcases hwrite' : a.write p.buffer p.offset bytes' with ⟨fault | _, c⟩
        · rw [hwrite'] at h
          cases h
        · rw [hwrite'] at h
          cases h
          rfl
  · rintro ⟨hconvert, bytes, start, hencode, hstart, rfl⟩
    simp only [store, hconvert, hencode, Arena.write, hstart]
    rfl

theorem isScalar_of_store (h : a.store p v = (.ok stored, b)) : p.pointee.isScalar = true :=
  Value.isScalar_of_convert (store_eq_ok_iff.1 h).1

theorem load_eq_of_isScalar (a : Arena) (h : p.pointee.isScalar = true) :
    a.load p = (a.read p.buffer p.offset p.pointee.size).bind (Value.decode p.pointee) := by
  refine load_eq ?_ ?_
  · cases hpointee : p.pointee with
    | array =>
      rw [hpointee] at h
      cases h
    | _ => rfl
  · intro hvoid
    rw [hvoid] at h
    cases h

/-- What was stored is loaded. -/
theorem load_of_store (h : a.store p v = (.ok stored, b)) : b.load p = .ok stored := by
  obtain ⟨hconvert, bytes, start, hencode, hstart, rfl⟩ := store_eq_ok_iff.1 h
  have hlength := Value.length_of_encode hencode
  have hbytes : bytes ≠ [] := by
    refine List.ne_nil_of_length_pos (hlength ▸ ?_)
    exact CType.size_pos_of_isScalar (isScalar_of_store h)
  rw [load_eq_of_isScalar _ (isScalar_of_store h), ← hlength, read_of_overwrite hstart hbytes]
  exact Value.decode_of_encode (Value.convert_of_convert hconvert) hencode

/-- A value that fits the pointee is stored wherever there is room for it. -/
theorem exists_store_of_start {start : Nat} (hv : v.IsStorable) (hconvert : v.convert p.pointee = .ok stored)
    (hstart : a.start p.buffer p.offset p.pointee.size = .ok start) :
    ∃ b, a.store p v = (.ok stored, b) := by
  obtain ⟨bytes, hencode, -⟩ := Value.exists_encode hv hconvert
  rw [Value.encode_of_convert hconvert] at hencode
  rw [← Value.length_of_encode hencode] at hstart
  exact ⟨_, store_eq_ok_iff.2 ⟨hconvert, bytes, start, hencode, hstart, rfl⟩⟩

/-- A value that is loaded stands for bytes of a live buffer. -/
theorem exists_read_of_load (hp : p.pointee.isScalar = true) (h : a.load p = .ok v) :
    ∃ bytes, a.read p.buffer p.offset p.pointee.size = .ok bytes ∧
      Value.decode p.pointee bytes = .ok v := by
  rw [load_eq_of_isScalar a hp] at h
  rcases hread : a.read p.buffer p.offset p.pointee.size with fault | bytes
  · rw [hread] at h
    cases h
  · rw [hread] at h
    exact ⟨bytes, rfl, h⟩

theorem exists_start_of_read {offset : Int} {width : Nat} {bytes : List UInt8}
    (h : a.read id offset width = .ok bytes) : ∃ start, a.start id offset width = .ok start := by
  rcases hstart : a.start id offset width with fault | start
  · rw [read_of_error hstart] at h
    cases h
  · exact ⟨start, rfl⟩

/-- What is loaded can be stored again, and changes nothing. -/
theorem store_of_load (hp : p.pointee.isScalar = true) (h : a.load p = .ok v) :
    a.store p v = (.ok v, a) := by
  obtain ⟨bytes, hread, hdecode⟩ := exists_read_of_load hp h
  obtain ⟨start, hstart⟩ := exists_start_of_read hread
  exact store_eq_ok_iff.2 ⟨Value.convert_of_decode hdecode, bytes, start,
    Value.encode_of_decode hdecode, length_of_read hread ▸ hstart,
    (overwrite_of_read hstart hread).symm⟩

/-- A store changes no byte but those of the value. -/
theorem byte?_of_store (h : a.store p v = (.ok stored, b)) {id : BufferId} {position : Nat}
    (hid : id = p.buffer → position < p.offset ∨ p.offset + p.pointee.size ≤ position) :
    b.byte? id position = a.byte? id position := by
  obtain ⟨-, bytes, start, hencode, hstart, rfl⟩ := store_eq_ok_iff.1 h
  refine byte?_of_overwrite hstart ?_
  rwa [Value.length_of_encode hencode]

theorem start_overwrite (a : Arena) (id : BufferId) (start : Nat) (bytes : List UInt8) (other : BufferId)
    (offset : Int) (width : Nat) :
    (a.overwrite id start bytes).start other offset width = a.start other offset width := by
  by_cases hid : other = id
  · subst hid
    by_cases hnull : other = .null
    · subst hnull
      rfl
    · have hget := get?_overwrite_self a hnull start bytes
      cases hc : a.get? other with
      | none =>
        rw [hc, Option.map_none] at hget
        rw [start_of_none hget, start_of_none hc]
      | some c =>
        rw [hc, Option.map_some] at hget
        rw [start_of_some hget, start_of_some hc, Buffer.size, size_setBytes, Buffer.size]
  · unfold Arena.start get
    rw [get?_overwrite_of_ne a hid]

/-- Bytes that are the same in two arenas are read as the same. -/
theorem read_eq_of_bytes {offset : Int} {width : Nat}
    (hstart : b.start id offset width = a.start id offset width)
    (hbytes : 0 ≤ offset → ∀ k < width, b.byte? id (offset.toNat + k) = a.byte? id (offset.toNat + k)) :
    b.read id offset width = a.read id offset width := by
  rcases h : a.start id offset width with fault | start
  · rw [read_of_error h, read_of_error (hstart.trans h)]
  · obtain ⟨c, hc, hpos, hend, rfl⟩ := start_eq_ok_iff.1 h
    obtain ⟨d, hd, -, hend', -⟩ := start_eq_ok_iff.1 (hstart.trans h)
    rw [read_of_start h hc, read_of_start (hstart.trans h) hd]
    refine congrArg Except.ok (List.ext_getElem? fun k => ?_)
    have hcsize : offset.toNat + width ≤ c.bytes.size := by
      have : c.size = c.bytes.size := rfl
      omega
    have hdsize : offset.toNat + width ≤ d.bytes.size := by
      have : d.size = d.bytes.size := rfl
      omega
    rw [Array.getElem?_toList, Array.getElem?_toList, Array.getElem?_extract, Array.getElem?_extract,
      Nat.min_eq_left hcsize, Nat.min_eq_left hdsize, Nat.add_sub_cancel_left]
    split
    · have hk := hbytes hpos k ‹_›
      rwa [byte?, byte?, hc, hd] at hk
    · rfl

/-- A store does not change what lies apart from it. -/
theorem load_of_store_apart {q : Pointer} (h : a.store p v = (.ok stored, b))
    (hq : q.pointee.isScalar = true)
    (hapart : q.buffer = p.buffer → q.offset + q.pointee.size ≤ p.offset ∨
      p.offset + p.pointee.size ≤ q.offset) : b.load q = a.load q := by
  have hstart : b.start q.buffer q.offset q.pointee.size = a.start q.buffer q.offset q.pointee.size := by
    obtain ⟨-, bytes, start, -, -, rfl⟩ := store_eq_ok_iff.1 h
    exact start_overwrite ..
  rw [load_eq_of_isScalar b hq, load_eq_of_isScalar a hq]
  rw [read_eq_of_bytes hstart fun hpos k hk => byte?_of_store h fun hid => ?_]
  have := hapart hid
  omega

end Arena

/-- Values and bytes go over into each other without loss, and so do values and storage: what a store
answers is the converted value, which is loaded again and can be stored again without a change; all
other bytes, and the buffers as such, stay as they are. A store that fails changes nothing. -/
theorem round_trips :
    (∀ {v w : Value} {t : CType}, v.IsStorable → v.convert t = .ok w →
      ∃ bytes, v.encode t = .ok bytes ∧ Value.decode t bytes = .ok w) ∧
    (∀ {t : CType} {bytes : List UInt8}, t.isScalar = true → bytes.length = t.size →
      ∃ v, Value.decode t bytes = .ok v ∧ v.encode t = .ok bytes) ∧
    ∀ (a : Arena) (p : Pointer) (v : Value), match a.store p v with
      | (.ok stored, b) =>
        v.convert p.pointee = .ok stored ∧ b.load p = .ok stored ∧
          b.store p stored = (.ok stored, b) ∧ b.shapes = a.shapes ∧
          ∀ (id : BufferId) (position : Nat),
            (id = p.buffer → position < p.offset ∨ p.offset + p.pointee.size ≤ position) →
            b.byte? id position = a.byte? id position
      | (.error _, b) => b = a := by
  refine ⟨fun hv h => Value.exists_encode hv h, fun ht hlength => ?_, fun a p v => ?_⟩
  · obtain ⟨v, hv⟩ := Value.exists_decode_of_isScalar ht hlength
    exact ⟨v, hv, Value.encode_of_decode hv⟩
  · have hshapes := a.shapes_store p v
    rcases h : a.store p v with ⟨fault | stored, b⟩
    · have hsame := Arena.store_of_error (congrArg Prod.fst h)
      rwa [h] at hsame
    · rw [h] at hshapes
      have hload := Arena.load_of_store h
      exact ⟨(Arena.store_eq_ok_iff.1 h).1, hload,
        Arena.store_of_load (Arena.isScalar_of_store h) hload, hshapes,
        fun id position hid => Arena.byte?_of_store h hid⟩

/-- A pointer in front of its buffer, stored where pointers of another type are, and eight bytes that
were never a pointer. -/
theorem round_trips_pointer :
    let v : Value := .pointer ⟨⟨7⟩, -2, .int⟩
    let bytes : List UInt8 := [1, 2, 3, 4, 5, 6, 7, 0x88]
    v.IsStorable ∧ v.convert (.pointer .char) = .ok (.pointer ⟨⟨7⟩, -2, .char⟩) ∧
      (∃ bytes, v.encode (.pointer .char) = .ok bytes ∧
        Value.decode (.pointer .char) bytes = .ok (.pointer ⟨⟨7⟩, -2, .char⟩)) ∧
      bytes.length = (CType.pointer .int).size ∧
      ∃ w, Value.decode (.pointer .int) bytes = .ok w ∧ w.encode (.pointer .int) = .ok bytes :=
  have hv : (Value.pointer ⟨⟨7⟩, -2, .int⟩).IsStorable := Value.isStorable_pointer rfl
  ⟨hv, rfl, round_trips.1 hv rfl, rfl, round_trips.2.1 rfl rfl⟩

end BoundedC
