import EfaExamples.Efa.Model.Net
/-!
# Addresses as text

`Addr2Str` writes two lower-case digits for each of the `kAddrSize` bytes, and
`Str2Addr` reads the byte `i` from the two characters at `2 * i`. Each undoes
the other: the first on every address, the second on every text of that many
lower-case digits.
-/

namespace EfaExamples

variable {b : UInt8} {c d : Char} {s : String} {l : List Char} {bytes : ℕ → UInt8}

/-! ## One byte -/

@[simp] theorem length_hex : (hex b).length = 2 := rfl

theorem mem_lowerHex_of_mem_hex (h : c ∈ hex b) : c ∈ lowerHex := by
  have hb := b.toNat_lt
  rcases List.mem_pair.mp h with rfl | rfl
  · exact digitChar_mem_lowerHex (by omega)
  · exact digitChar_mem_lowerHex (by omega)

/-- Two digits are read as one byte. -/
theorem scanByte_digits {m n : ℕ} (hm : m < 16) (hn : n < 16) :
    scanByte (Nat.digitChar m :: Nat.digitChar n :: l) = some (UInt8.ofNat (16 * m + n)) := by
  have hplain : ∀ n < 16, Nat.digitChar n ≠ Char.ofNat 0 ∧ isSpace (Nat.digitChar n) = false ∧
      Nat.digitChar n ≠ '+' ∧ Nat.digitChar n ≠ '-' ∧ Nat.digitChar n ≠ 'x' ∧
      Nat.digitChar n ≠ 'X' := by decide
  obtain ⟨hm₀, hspace, hplus, hminus, -, -⟩ := hplain m hm
  obtain ⟨hn₀, -, -, -, hx, hX⟩ := hplain n hn
  simp only [scanByte, List.takeWhile_cons, hm₀, hn₀, ne_eq, not_false_eq_true, decide_true,
    if_true, List.dropWhile_cons, hspace, Bool.false_eq_true, if_false, hplus, hminus, hx, hX,
    or_self, and_false, hexValue_digitChar hm, hexValue_digitChar hn, Option.map_some,
    Option.getD_some]

/-- **A byte is read as it was written.** -/
theorem scanByte_hex : scanByte (hex b ++ l) = some b := by
  have hb := b.toNat_lt
  have hhigh : b.toNat / 16 < 16 := by omega
  have hlow : b.toNat % 16 < 16 := by omega
  rw [hex, List.cons_append, List.cons_append, List.nil_append, scanByte_digits hhigh hlow,
    Nat.div_add_mod, UInt8.ofNat_toNat]

/-- **A pair of digits is written as it was read.** -/
theorem exists_scanByte (hc : c ∈ lowerHex) (hd : d ∈ lowerHex) :
    ∃ b, scanByte (c :: d :: l) = some b ∧ hex b = [c, d] := by
  obtain ⟨m, hm, rfl⟩ := exists_digitChar hc
  obtain ⟨n, hn, rfl⟩ := exists_digitChar hd
  refine ⟨_, scanByte_digits hm hn, ?_⟩
  have hbyte : (UInt8.ofNat (16 * m + n)).toNat = 16 * m + n :=
    UInt8.toNat_ofNat_of_lt (by norm_num; omega)
  rw [hex, hbyte, show (16 * m + n) / 16 = m by omega, show (16 * m + n) % 16 = n by omega]

/-! ## The loop -/

/-- **What the loop leaves**, of a text that is long enough for it. -/
theorem str2Addr_eq (h : 2 * kAddrSize ≤ s.length) :
    str2Addr s bytes = some fun i =>
      if i < kAddrSize then (scanByte (s.toList.drop (2 * i))).getD (bytes i) else bytes i := by
  suffices hloop : ∀ n ≤ kAddrSize, (List.range n).foldlM (fun bytes i =>
      if 2 * i ≤ s.length then
        some (((scanByte (s.toList.drop (2 * i))).map (Function.update bytes i)).getD bytes)
      else none) bytes = some fun i =>
        if i < n then (scanByte (s.toList.drop (2 * i))).getD (bytes i) else bytes i from
    hloop kAddrSize le_rfl
  intro n
  induction n with
  | zero =>
    intro _
    simp
  | succ n ih =>
    intro hn
    have hin : 2 * n ≤ s.length := by omega
    rw [List.range_succ, List.foldlM_append, ih (by omega)]
    simp only [Option.bind_eq_bind, Option.bind_some, List.foldlM_cons, if_pos hin,
      List.foldlM_nil, pure, Option.some.injEq]
    funext i
    cases hscan : scanByte (s.toList.drop (2 * n)) with
    | none => grind
    | some v =>
      simp only [Option.map_some, Option.getD_some, Function.update_apply]
      grind

/-! ## The round trips -/

/-- The text of an address, from the digits of its byte `i` on. -/
theorem drop_addr2Str {a : ℕ → UInt8} {i : ℕ} (h : i < kAddrSize) :
    ∃ rest, (addr2Str a).toList.drop (2 * i) = hex (a i) ++ rest := by
  rw [addr2Str, String.toList_ofList, drop_flatMap_of_length (fun _ _ => length_hex),
    List.drop_eq_getElem_cons (by simpa using h), List.getElem_range, List.flatMap_cons]
  exact ⟨_, rfl⟩

theorem length_addr2Str (a : ℕ → UInt8) : (addr2Str a).length = 2 * kAddrSize := by
  rw [← String.length_toList, addr2Str, String.toList_ofList,
    length_flatMap_of_length (fun _ => length_hex), List.length_range]

theorem lowerHex_addr2Str {a : ℕ → UInt8} (h : c ∈ (addr2Str a).toList) : c ∈ lowerHex := by
  rw [addr2Str, String.toList_ofList] at h
  obtain ⟨i, -, hi⟩ := List.mem_flatMap.mp h
  exact mem_lowerHex_of_mem_hex hi

/-- **What was written is read back**, into any buffer. -/
theorem str2Addr_addr2Str (a bytes : ℕ → UInt8) :
    str2Addr (addr2Str a) bytes = some fun i => if i < kAddrSize then a i else bytes i := by
  rw [str2Addr_eq (length_addr2Str a).ge]
  refine congrArg some (funext fun i => ?_)
  by_cases hi : i < kAddrSize
  · obtain ⟨rest, hrest⟩ := drop_addr2Str (a := a) hi
    rw [if_pos hi, if_pos hi, hrest, scanByte_hex, Option.getD_some]
  · rw [if_neg hi, if_neg hi]

/-- **The text is the first `kAddrSize` bytes.** -/
theorem addr2Str_eq_iff {a b : ℕ → UInt8} :
    addr2Str a = addr2Str b ↔ ∀ i < kAddrSize, a i = b i := by
  constructor
  · intro h i hi
    have hread := str2Addr_addr2Str a a
    rw [h, str2Addr_addr2Str, Option.some.injEq] at hread
    have := congrFun hread i
    rw [if_pos hi, if_pos hi] at this
    exact this.symm
  · intro h
    rw [addr2Str, addr2Str, List.flatMap_congr fun i hi => by rw [h i (List.mem_range.mp hi)]]

/-- Two characters of a text of digits are what is written for the byte read from them. -/
theorem hex_scanByte {i : ℕ} (hlen : s.length = 2 * kAddrSize) (hs : ∀ c ∈ s.toList, c ∈ lowerHex)
    (hi : i < kAddrSize) (b : UInt8) :
    hex ((scanByte (s.toList.drop (2 * i))).getD b) = (s.toList.drop (2 * i)).take 2 := by
  rw [← String.length_toList] at hlen
  have hfirst : 2 * i < s.toList.length := by omega
  have hsecond : 2 * i + 1 < s.toList.length := by omega
  rw [List.drop_eq_getElem_cons hfirst, List.drop_eq_getElem_cons hsecond]
  obtain ⟨b', hscan, hhex⟩ := exists_scanByte (l := s.toList.drop (2 * i + 1 + 1))
    (hs _ (List.getElem_mem hfirst)) (hs _ (List.getElem_mem hsecond))
  rw [hscan, Option.getD_some, hhex]
  rfl

/-- **Addresses and texts correspond.** What `Addr2Str` writes has two lower-case digits for each
byte, and other digits for other bytes; `Str2Addr` restores the bytes from it, and from every text
of as many digits the bytes for which `Addr2Str` writes that text. It leaves the rest of the
buffer as it is. -/
theorem addr2Str_str2Addr :
    (∀ a bytes : ℕ → UInt8, ∃ bytes', str2Addr (addr2Str a) bytes = some bytes' ∧
      (∀ i < kAddrSize, bytes' i = a i) ∧ ∀ i, kAddrSize ≤ i → bytes' i = bytes i) ∧
    (∀ a : ℕ → UInt8, (addr2Str a).length = 64 ∧ ∀ c ∈ (addr2Str a).toList, c ∈ lowerHex) ∧
    (∀ a b : ℕ → UInt8, addr2Str a = addr2Str b → ∀ i < kAddrSize, a i = b i) ∧
    ∀ (s : String) (bytes : ℕ → UInt8), s.length = 64 → (∀ c ∈ s.toList, c ∈ lowerHex) →
      ∃ bytes', str2Addr s bytes = some bytes' ∧ addr2Str bytes' = s := by
  refine ⟨fun a bytes => ?_, fun a => ⟨length_addr2Str a, fun c => lowerHex_addr2Str⟩,
    fun a b => addr2Str_eq_iff.mp, fun s bytes hlen hs => ?_⟩
  · exact ⟨_, str2Addr_addr2Str a bytes, fun i hi => if_pos hi, fun i hi => if_neg (by omega)⟩
  · refine ⟨_, str2Addr_eq hlen.ge, ?_⟩
    have hpieces : ∀ i ∈ List.range kAddrSize,
        hex (if i < kAddrSize then (scanByte (s.toList.drop (2 * i))).getD (bytes i)
          else bytes i) = (s.toList.drop (2 * i)).take 2 := by
      intro i hi
      have hi := List.mem_range.mp hi
      rw [if_pos hi, hex_scanByte hlen hs hi]
    rw [addr2Str, List.flatMap_congr hpieces, flatMap_range_take_drop,
      List.take_of_length_le (by rw [String.length_toList]; exact hlen.le), String.ofList_toList]

/-- Every bit of every byte set, into a buffer of zeros. -/
theorem addr2Str_str2Addr_ones :
    (∃ bytes', str2Addr (addr2Str fun _ => 255) (fun _ => 0) = some bytes' ∧
      (∀ i < kAddrSize, bytes' i = 255) ∧ ∀ i, kAddrSize ≤ i → bytes' i = 0) ∧
    ∃ bytes', str2Addr (String.ofList (List.replicate 64 'f')) (fun _ => 0) = some bytes' ∧
      addr2Str bytes' = String.ofList (List.replicate 64 'f') :=
  ⟨addr2Str_str2Addr.1 _ _, addr2Str_str2Addr.2.2.2 _ _ (by decide) (by simp [lowerHex])⟩

end EfaExamples
