import CloudBurrow.Codec.Utf8

namespace CloudBurrow.JsonText

open Utf8

inductive Json where
  | null : Json
  | bool : Bool → Json
  | num : Int → Json
  | str : Bytes → Json
  | arr : List Json → Json
  | obj : List (Bytes × Json) → Json

def hexDigit (n : Nat) : UInt8 :=
  if n < 10 then UInt8.ofNat (48 + n) else UInt8.ofNat (87 + n)

def quoteAscii (b : UInt8) : Bytes :=
  if b = 34 ∨ b = 92 then [92, b]
  else if b = 8 then [92, 98]
  else if b = 9 then [92, 116]
  else if b = 10 then [92, 110]
  else if b = 12 then [92, 102]
  else if b = 13 then [92, 114]
  else if b < 0x20 ∨ b = 38 ∨ b = 60 ∨ b = 62 then
    [92, 117, 48, 48, hexDigit (b.toNat / 16), hexDigit (b.toNat % 16)]
  else [b]

def quoteRune : Option Bytes → Bytes
  -- Go 1.26, which go.mod asks for, writes an invalid byte as this escape.
  | none => ascii "\\ufffd"
  | some [b] => quoteAscii b
  | some c =>
    if c = [0xE2, 0x80, 0xA8] then ascii "\\u2028"
    else if c = [0xE2, 0x80, 0xA9] then ascii "\\u2029"
    else c

def quote (s : Bytes) : Bytes := 34 :: (runes s).flatMap quoteRune ++ [34]

def decimal (n : Nat) : Bytes :=
  if n = 0 then [48] else ((Nat.digits 10 n).map fun d => UInt8.ofNat (48 + d)).reverse

def integer (n : Int) : Bytes :=
  if n < 0 then 45 :: decimal n.natAbs else decimal n.natAbs

mutual

def encode : Json → Bytes
  | .null => ascii "null"
  | .bool true => ascii "true"
  | .bool false => ascii "false"
  | .num n => integer n
  | .str s => quote s
  | .arr items => 91 :: encodeItems items ++ [93]
  | .obj members => 123 :: encodeMembers members ++ [125]

def encodeItems : List Json → Bytes
  | [] => []
  | [v] => encode v
  | v :: vs => encode v ++ 44 :: encodeItems vs

def encodeMembers : List (Bytes × Json) → Bytes
  | [] => []
  | [(k, v)] => quote k ++ 58 :: encode v
  | (k, v) :: ms => quote k ++ 58 :: encode v ++ 44 :: encodeMembers ms

end

def hexValue (c : UInt8) : Option Nat :=
  if inRange 48 57 c then some (c.toNat - 48)
  else if inRange 97 102 c then some (c.toNat - 87)
  else if inRange 65 70 c then some (c.toNat - 55)
  else none

def hex4 : Bytes → Option (Nat × Bytes)
  | a :: b :: c :: d :: t => do
    let w ← hexValue a
    let x ← hexValue b
    let y ← hexValue c
    let z ← hexValue d
    some (((w * 16 + x) * 16 + y) * 16 + z, t)
  | _ => none

def encodeRune (n : Nat) : Bytes :=
  if n < 0x80 then [UInt8.ofNat n]
  else if n < 0x800 then [UInt8.ofNat (0xC0 + n / 64), UInt8.ofNat (0x80 + n % 64)]
  else if n < 0x10000 then
    [UInt8.ofNat (0xE0 + n / 4096), UInt8.ofNat (0x80 + n / 64 % 64), UInt8.ofNat (0x80 + n % 64)]
  else
    [UInt8.ofNat (0xF0 + n / 262144), UInt8.ofNat (0x80 + n / 4096 % 64),
      UInt8.ofNat (0x80 + n / 64 % 64), UInt8.ofNat (0x80 + n % 64)]

def lowSurrogate : Bytes → Option (Nat × Bytes)
  | 92 :: 117 :: t =>
    match hex4 t with
    | some (n, r) => if 0xDC00 ≤ n ∧ n < 0xE000 then some (n, r) else none
    | none => none
  | _ => none

def unescapeUnicode (t : Bytes) : Option (Bytes × Bytes) := do
  let (n, r) ← hex4 t
  if 0xD800 ≤ n ∧ n < 0xE000 then
    match lowSurrogate r with
    | some (m, r') =>
      if n < 0xDC00 then
        some (encodeRune (0x10000 + (n - 0xD800) * 0x400 + (m - 0xDC00)), r')
      else some (replacement, r)
    | none => some (replacement, r)
  else some (encodeRune n, r)

def unescape : Bytes → Option (Bytes × Bytes)
  | [] => none
  | c :: t =>
    if c = 34 ∨ c = 92 ∨ c = 47 then some ([c], t)
    else if c = 98 then some ([8], t)
    else if c = 116 then some ([9], t)
    else if c = 110 then some ([10], t)
    else if c = 102 then some ([12], t)
    else if c = 114 then some ([13], t)
    else if c = 117 then unescapeUnicode t
    else none

def unquote : Nat → Bytes → Option (Bytes × Bytes)
  | 0, _ => none
  | _ + 1, [] => none
  | n + 1, b :: t =>
    if b = 34 then some ([], t)
    else if b = 92 then
      (unescape t).bind fun p => (unquote n p.2).map fun q => (p.1 ++ q.1, q.2)
    else if b < 0x20 then none
    else
      match width (b :: t) with
      | 0 => (unquote n t).map fun q => (replacement ++ q.1, q.2)
      | w + 1 => (unquote n (t.drop w)).map fun q => ((b :: t).take (w + 1) ++ q.1, q.2)

variable {n : Nat}

theorem hexValue_hexDigit (h : n < 16) : hexValue (hexDigit n) = some n := by
  revert n
  decide

theorem hex4_byte (b : UInt8) (t : Bytes) :
    hex4 (48 :: 48 :: hexDigit (b.toNat / 16) :: hexDigit (b.toNat % 16) :: t) = some (b.toNat, t) := by
  have hb := b.toNat_lt
  have h0 : hexValue 48 = some 0 := by decide
  have hn : b.toNat / 16 * 16 + b.toNat % 16 = b.toNat := by omega
  simp only [hex4, h0, hexValue_hexDigit (show b.toNat / 16 < 16 by omega),
    hexValue_hexDigit (show b.toNat % 16 < 16 by omega)]
  simp [hn]

variable {b : UInt8}

theorem unescape_byte (h : b < 0x80) (t : Bytes) :
    unescape (117 :: 48 :: 48 :: hexDigit (b.toNat / 16) :: hexDigit (b.toNat % 16) :: t) =
      some ([b], t) := by
  have hn : b.toNat < 128 := by simpa [UInt8.lt_iff_toNat_lt] using h
  have hs : ¬ (0xD800 ≤ b.toNat ∧ b.toNat < 0xE000) := by omega
  simp [unescape, unescapeUnicode, hex4_byte, hs, encodeRune, hn]

variable {c t : Bytes}

theorem unquote_escape {e : Bytes} (h : unescape (e ++ t) = some (c, t)) (n : Nat) :
    unquote (n + 1) (92 :: e ++ t) = (unquote n t).map fun q => (c ++ q.1, q.2) := by
  simp [unquote, h]

theorem unquote_raw {u : Bytes} (hq : b ≠ 34) (hs : b ≠ 92) (hc : ¬ b < 0x20)
    (hw : width (b :: u) = (b :: u).length) (n : Nat) (t : Bytes) :
    unquote (n + 1) (b :: u ++ t) = (unquote n t).map fun q => (b :: u ++ q.1, q.2) := by
  have hwt : width (b :: (u ++ t)) = u.length + 1 := by
    rw [← List.cons_append, width_append (by simp [hw]), hw, List.length_cons]
  simp [unquote, hq, hs, hc, hwt]

theorem unquote_quoteAscii (h : b < 0x80) (n : Nat) (t : Bytes) :
    unquote (n + 1) (quoteAscii b ++ t) = (unquote n t).map fun q => ([b] ++ q.1, q.2) := by
  unfold quoteAscii
  split_ifs with h1 h2 h3 h4 h5 h6 h7
  · exact unquote_escape (e := [b]) (by rcases h1 with rfl | rfl <;> rfl) n
  · exact unquote_escape (e := [98]) (by subst h2; rfl) n
  · exact unquote_escape (e := [116]) (by subst h3; rfl) n
  · exact unquote_escape (e := [110]) (by subst h4; rfl) n
  · exact unquote_escape (e := [102]) (by subst h5; rfl) n
  · exact unquote_escape (e := [114]) (by subst h6; rfl) n
  · exact unquote_escape (e := [117, 48, 48, _, _]) (unescape_byte h t) n
  · push Not at h1 h7
    exact unquote_raw (u := []) h1.1 h1.2 (by simpa using h7.1) (by simp [width_ascii h]) n t

theorem width_one (hw : width [b] = 1) : b < 0x80 := by
  by_contra h
  revert hw
  simp [width, leadSize, h]
  split_ifs <;> simp

theorem unquote_quoteRune (hne : c ≠ []) (hw : width c = c.length) (n : Nat) (t : Bytes) :
    unquote (n + 1) (quoteRune (some c) ++ t) = (unquote n t).map fun q => (c ++ q.1, q.2) := by
  rcases c with _ | ⟨b, _ | ⟨b1, u⟩⟩
  · exact absurd rfl hne
  · exact unquote_quoteAscii (width_one hw) n t
  · have hlead := UInt8.not_lt.mpr (chunk_high (by simp) hw b (by simp))
    simp only [quoteRune]
    split_ifs with h1 h2
    · rw [h1]
      exact unquote_escape (e := [117, 50, 48, 50, 56]) rfl n
    · rw [h2]
      exact unquote_escape (e := [117, 50, 48, 50, 57]) rfl n
    · refine unquote_raw ?_ ?_ ?_ hw n t
      · rintro rfl
        exact hlead (by decide)
      · rintro rfl
        exact hlead (by decide)
      · exact fun h => hlead (UInt8.lt_trans h (show (0x20 : UInt8) < 0x80 by decide))

theorem quoteRune_ne_nil (hne : c ≠ []) : quoteRune (some c) ≠ [] := by
  rcases c with _ | ⟨b, _ | ⟨b1, u⟩⟩
  · exact absurd rfl hne
  · simp only [quoteRune, quoteAscii]
    split_ifs <;> simp
  · simp only [quoteRune]
    split_ifs <;> simp [ascii]

theorem unquote_quoted (s : Bytes) (n : Nat) (t : Bytes) (hn : ((runes s).flatMap quoteRune).length < n) :
    unquote n ((runes s).flatMap quoteRune ++ 34 :: t) = some (toValid s, t) := by
  induction s using runes_induction generalizing n with
  | nil =>
    obtain ⟨m, rfl⟩ := Nat.exists_eq_add_one_of_ne_zero (Nat.ne_of_gt (Nat.zero_lt_of_lt hn))
    simp [unquote, toValid]
  | invalid b u hw ih =>
    obtain ⟨m, rfl⟩ := Nat.exists_eq_add_one_of_ne_zero (Nat.ne_of_gt (Nat.zero_lt_of_lt hn))
    simp only [runes_invalid hw, List.flatMap_cons, List.length_append] at hn
    have hl : (quoteRune none).length = 6 := rfl
    have hu := ih m (by omega)
    simp only [runes_invalid hw, List.flatMap_cons, toValid, List.append_assoc]
    refine (unquote_escape (e := [117, 102, 102, 102, 100]) (c := replacement) rfl m).trans ?_
    rw [hu]
    rfl
  | chunk c u hne hw ih =>
    obtain ⟨m, rfl⟩ := Nat.exists_eq_add_one_of_ne_zero (Nat.ne_of_gt (Nat.zero_lt_of_lt hn))
    simp only [runes_chunk hne hw, List.flatMap_cons, List.length_append] at hn
    have hl := List.length_pos_iff.mpr (quoteRune_ne_nil hne)
    have hu := ih m (by omega)
    simp only [runes_chunk hne hw, List.flatMap_cons, toValid, List.append_assoc]
    rw [unquote_quoteRune hne hw, hu]
    rfl

def parseString (t : Bytes) : Option (Bytes × Bytes) := unquote (t.length + 1) t

theorem parseString_quote (s t : Bytes) :
    ∃ u, quote s ++ t = 34 :: u ∧ parseString u = some (toValid s, t) := by
  refine ⟨(runes s).flatMap quoteRune ++ 34 :: t, by simp [quote], ?_⟩
  exact unquote_quoted s _ t (by simp)

def blank (b : UInt8) : Bool := b == 32 || b == 9 || b == 10 || b == 13

def skip (s : Bytes) : Bytes := s.dropWhile blank

def isDigit (b : UInt8) : Bool := inRange 48 57 b

def parseDigits : Bytes → Option (Nat × Bytes)
  | [] => none
  | b :: t =>
    if b = 48 then some (0, t)
    else if isDigit b then
      some (Nat.ofDigits 10 (((b :: t).takeWhile isDigit).map fun d => d.toNat - 48).reverse,
        (b :: t).dropWhile isDigit)
    else none

def parseNumber : Bytes → Option (Int × Bytes)
  | 45 :: t => (parseDigits t).map fun p => (-p.1, p.2)
  | s => (parseDigits s).map fun p => (p.1, p.2)

def literal (word s : Bytes) : Option Bytes :=
  if word.isPrefixOf s then some (s.drop word.length) else none

mutual

def parseValue : Nat → Bytes → Option (Json × Bytes)
  | 0, _ => none
  | n + 1, s =>
    match skip s with
    | [] => none
    | b :: t =>
      if b = 34 then (parseString t).map fun p => (.str p.1, p.2)
      else if b = 91 then
        match skip t with
        | 93 :: r => some (.arr [], r)
        | _ => (parseItems n t).map fun p => (.arr p.1, p.2)
      else if b = 123 then
        match skip t with
        | 125 :: r => some (.obj [], r)
        | _ => (parseMembers n t).map fun p => (.obj p.1, p.2)
      else if b = 110 then (literal (ascii "null") (b :: t)).map fun r => (.null, r)
      else if b = 116 then (literal (ascii "true") (b :: t)).map fun r => (.bool true, r)
      else if b = 102 then (literal (ascii "false") (b :: t)).map fun r => (.bool false, r)
      else (parseNumber (b :: t)).map fun p => (.num p.1, p.2)

def parseItems : Nat → Bytes → Option (List Json × Bytes)
  | 0, _ => none
  | n + 1, s =>
    (parseValue n s).bind fun p =>
      match skip p.2 with
      | 44 :: r => (parseItems n r).map fun q => (p.1 :: q.1, q.2)
      | 93 :: r => some ([p.1], r)
      | _ => none

def parseMembers : Nat → Bytes → Option (List (Bytes × Json) × Bytes)
  | 0, _ => none
  | n + 1, s =>
    match skip s with
    | 34 :: t =>
      (parseString t).bind fun k =>
        match skip k.2 with
        | 58 :: r =>
          (parseValue n r).bind fun v =>
            match skip v.2 with
            | 44 :: r' => (parseMembers n r').map fun q => ((k.1, v.1) :: q.1, q.2)
            | 125 :: r' => some ([(k.1, v.1)], r')
            | _ => none
        | _ => none
    | _ => none

end

def parse (s : Bytes) : Option Json :=
  (parseValue (s.length + 1) s).bind fun p => if skip p.2 = [] then some p.1 else none

mutual

def clean : Json → Json
  | .str s => .str (toValid s)
  | .arr items => .arr (cleanItems items)
  | .obj members => .obj (cleanMembers members)
  | j => j

def cleanItems : List Json → List Json
  | [] => []
  | v :: vs => clean v :: cleanItems vs

def cleanMembers : List (Bytes × Json) → List (Bytes × Json)
  | [] => []
  | (k, v) :: ms => (toValid k, clean v) :: cleanMembers ms

end

theorem cleanItems_eq_map (vs : List Json) : cleanItems vs = vs.map clean := by
  induction vs with
  | nil => rfl
  | cons v vs ih => rw [cleanItems, ih, List.map_cons]

theorem cleanMembers_eq_map (ms : List (Bytes × Json)) :
    cleanMembers ms = ms.map fun m => (toValid m.1, clean m.2) := by
  induction ms with
  | nil => rfl
  | cons m ms ih => rw [cleanMembers, ih, List.map_cons]

mutual

theorem clean_clean : ∀ j : Json, clean (clean j) = clean j
  | .null => rfl
  | .bool _ => rfl
  | .num _ => rfl
  | .str s => by simp [clean]
  | .arr items => by simp [clean, cleanItems_cleanItems items]
  | .obj members => by simp [clean, cleanMembers_cleanMembers members]

theorem cleanItems_cleanItems : ∀ vs : List Json, cleanItems (cleanItems vs) = cleanItems vs
  | [] => rfl
  | v :: vs => by simp [cleanItems, clean_clean v, cleanItems_cleanItems vs]

theorem cleanMembers_cleanMembers : ∀ ms : List (Bytes × Json),
    cleanMembers (cleanMembers ms) = cleanMembers ms
  | [] => rfl
  | (k, v) :: ms => by simp [cleanMembers, clean_clean v, cleanMembers_cleanMembers ms]

end

def NoDigit (t : Bytes) : Prop := ∀ b ∈ t.head?, isDigit b = false

theorem digit_byte {d : Nat} (h : d < 10) :
    isDigit (UInt8.ofNat (48 + d)) = true ∧ (UInt8.ofNat (48 + d)).toNat - 48 = d ∧
      (UInt8.ofNat (48 + d) = 48 → d = 0) := by
  revert d
  decide

theorem decimal_digits (n : Nat) : ∀ b ∈ decimal n, isDigit b = true := by
  intro b hb
  unfold decimal at hb
  split_ifs at hb with h0
  · rw [List.mem_singleton.mp hb]
    rfl
  · simp only [List.mem_reverse, List.mem_map] at hb
    obtain ⟨d, hd, rfl⟩ := hb
    exact (digit_byte (Nat.digits_lt_base (by norm_num) hd)).1

theorem decimal_value (n : Nat) : Nat.ofDigits 10 ((decimal n).map fun d => d.toNat - 48).reverse = n := by
  unfold decimal
  split_ifs with h0
  · subst h0
    rfl
  · have hm : ((Nat.digits 10 n).map fun d => UInt8.ofNat (48 + d)).map (fun d => d.toNat - 48) =
        Nat.digits 10 n := by
      rw [List.map_map]
      conv_rhs => rw [← List.map_id (Nat.digits 10 n)]
      refine List.map_congr_left fun d hd => ?_
      exact (digit_byte (Nat.digits_lt_base (by norm_num) hd)).2.1
    rw [List.map_reverse, List.reverse_reverse, hm, Nat.ofDigits_digits]

theorem decimal_head (n : Nat) :
    ∃ b u, decimal n = b :: u ∧ isDigit b = true ∧ (b = 48 → n = 0 ∧ u = []) := by
  unfold decimal
  split_ifs with h0
  · exact ⟨48, [], rfl, rfl, fun _ => ⟨h0, rfl⟩⟩
  · have hne : Nat.digits 10 n ≠ [] := Nat.digits_ne_nil_iff_ne_zero.mpr h0
    have hlt := digit_byte (Nat.digits_lt_base (by norm_num) (List.getLast_mem hne))
    refine ⟨UInt8.ofNat (48 + (Nat.digits 10 n).getLast hne),
      ((Nat.digits 10 n).dropLast.map fun d => UInt8.ofNat (48 + d)).reverse, ?_, hlt.1, ?_⟩
    · conv_lhs => rw [← List.dropLast_append_getLast hne]
      simp
    · exact fun h => absurd (hlt.2.2 h) (Nat.getLast_digit_ne_zero 10 h0)

theorem parseDigits_decimal (n : Nat) (ht : NoDigit t) : parseDigits (decimal n ++ t) = some (n, t) := by
  obtain ⟨b, u, hbu, hb, hz⟩ := decimal_head n
  have htake : (decimal n ++ t).takeWhile isDigit = decimal n := by
    rw [List.takeWhile_append_of_pos (decimal_digits n)]
    cases t with
    | nil => simp
    | cons c t => simp [ht c rfl]
  have hdrop : (decimal n ++ t).dropWhile isDigit = t := by
    rw [List.dropWhile_append_of_pos (decimal_digits n)]
    cases t with
    | nil => rfl
    | cons c t => simp [ht c rfl]
  have hv := decimal_value n
  rw [hbu] at htake hdrop hv ⊢
  simp only [List.cons_append] at htake hdrop ⊢
  by_cases h48 : b = 48
  · obtain ⟨rfl, rfl⟩ := hz h48
    simp [parseDigits, h48]
  · simp only [parseDigits, h48, if_false, hb, if_true, htake, hdrop, hv]

theorem integer_head (n : Int) : ∃ b u, integer n = b :: u ∧ (isDigit b = true ∨ b = 45) := by
  unfold integer
  split_ifs
  · exact ⟨45, _, rfl, .inr rfl⟩
  · obtain ⟨b, u, h, hb, -⟩ := decimal_head n.natAbs
    exact ⟨b, u, h, .inl hb⟩

theorem parseNumber_integer (n : Int) (ht : NoDigit t) : parseNumber (integer n ++ t) = some (n, t) := by
  have hdigits := parseDigits_decimal n.natAbs ht
  unfold integer
  split_ifs with hneg
  · simp [parseNumber, hdigits, abs_of_neg hneg]
  · obtain ⟨b, u, hbu, hb, -⟩ := decimal_head n.natAbs
    have hb45 : b ≠ 45 := by
      rintro rfl
      exact absurd hb (by decide)
    rw [hbu, List.cons_append] at hdigits ⊢
    simp [parseNumber, hb45, hdigits, abs_of_nonneg (not_lt.mp hneg)]

theorem skip_cons (h : blank b = false) (t : Bytes) : skip (b :: t) = b :: t := by
  simp [skip, h]

theorem digit_not_blank (h : isDigit b = true ∨ b = 45) :
    blank b = false ∧ b ≠ 34 ∧ b ≠ 91 ∧ b ≠ 93 ∧ b ≠ 123 ∧ b ≠ 110 ∧ b ≠ 116 ∧ b ≠ 102 := by
  have hb := b.toNat_lt
  simp only [isDigit, inRange, Bool.and_eq_true, decide_eq_true_eq, UInt8.le_iff_toNat_le, ← UInt8.toNat_inj] at h
  simp only [blank, ne_eq, Bool.or_eq_false_iff, beq_eq_false_iff_ne, ← UInt8.toNat_inj]
  simp at h ⊢
  omega

theorem encode_head (j : Json) : ∃ b u, encode j = b :: u ∧ blank b = false ∧ b ≠ 93 := by
  cases j with
  | null => exact ⟨_, _, rfl, rfl, by decide⟩
  | bool b => cases b <;> exact ⟨_, _, rfl, rfl, by decide⟩
  | num n =>
    obtain ⟨b, u, h, hb⟩ := integer_head n
    exact ⟨b, u, by rw [encode, h], (digit_not_blank hb).1, (digit_not_blank hb).2.2.2.1⟩
  | str s => exact ⟨_, _, by rw [encode, quote, List.cons_append], rfl, by decide⟩
  | arr items | obj members => exact ⟨_, _, by rw [encode, List.cons_append], rfl, by decide⟩

theorem noDigit_cons (h : isDigit b = false) (t : Bytes) : NoDigit (b :: t) := by
  simpa [NoDigit] using h

theorem encodeItems_cons (v w : Json) (vs : List Json) :
    encodeItems (v :: w :: vs) = encode v ++ 44 :: encodeItems (w :: vs) := by
  rw [encodeItems]
  simp

theorem encodeMembers_cons (k : Bytes) (v : Json) (m : Bytes × Json) (ms : List (Bytes × Json)) :
    encodeMembers ((k, v) :: m :: ms) = quote k ++ 58 :: encode v ++ 44 :: encodeMembers (m :: ms) := by
  rw [encodeMembers]
  simp

variable {v : Json}

theorem parseItems_last {s : Bytes}
    (h : parseValue n s = some (v, 93 :: t)) : parseItems (n + 1) s = some ([v], t) := by
  simp [parseItems, h, skip_cons (show blank 93 = false from rfl)]

variable {r : Bytes}

theorem parseItems_more {vs : List Json} {s : Bytes}
    (h : parseValue n s = some (v, 44 :: r)) (hr : parseItems n r = some (vs, t)) :
    parseItems (n + 1) s = some (v :: vs, t) := by
  simp [parseItems, h, hr, skip_cons (show blank 44 = false from rfl)]

theorem parseMembers_last {k : Bytes} (h : parseValue n r = some (v, 125 :: t)) :
    parseMembers (n + 1) (quote k ++ 58 :: r) = some ([(toValid k, v)], t) := by
  obtain ⟨u, hu, hk⟩ := parseString_quote k (58 :: r)
  simp [parseMembers, hu, hk, h, skip_cons (show blank 34 = false from rfl),
    skip_cons (show blank 58 = false from rfl), skip_cons (show blank 125 = false from rfl)]

theorem parseMembers_more {k : Bytes} {ms : List (Bytes × Json)}
    {r' : Bytes} (h : parseValue n r = some (v, 44 :: r'))
    (hr : parseMembers n r' = some (ms, t)) :
    parseMembers (n + 1) (quote k ++ 58 :: r) = some ((toValid k, v) :: ms, t) := by
  obtain ⟨u, hu, hk⟩ := parseString_quote k (58 :: r)
  simp [parseMembers, hu, hk, h, hr, skip_cons (show blank 34 = false from rfl),
    skip_cons (show blank 58 = false from rfl), skip_cons (show blank 44 = false from rfl)]

theorem parseValue_num (n : Nat) (k : Int) (ht : NoDigit t) :
    parseValue (n + 1) (integer k ++ t) = some (.num k, t) := by
  obtain ⟨b, u, hbu, hb⟩ := integer_head k
  obtain ⟨hblank, h1, h2, -, h3, h4, h5, h6⟩ := digit_not_blank hb
  have hp := parseNumber_integer k ht
  rw [hbu, List.cons_append] at hp ⊢
  simp [parseValue, skip_cons hblank, h1, h2, h3, h4, h5, h6, hp]

theorem parseValue_arr {items vs : List Json} (hne : items ≠ [])
    (h : parseItems n (encodeItems items ++ 93 :: t) = some (vs, t)) :
    parseValue (n + 1) (encode (.arr items) ++ t) = some (.arr vs, t) := by
  obtain ⟨v, rest, rfl⟩ := List.exists_cons_of_ne_nil hne
  obtain ⟨b, u, hu, hb, h93⟩ := encode_head v
  obtain ⟨w, hw⟩ : ∃ w, encodeItems (v :: rest) ++ 93 :: t = b :: w := by
    cases rest with
    | nil => exact ⟨_, by rw [encodeItems, hu, List.cons_append]⟩
    | cons v' rest => exact ⟨_, by rw [encodeItems_cons, hu, List.cons_append, List.cons_append]⟩
  simp only [encode, List.cons_append, List.append_assoc, List.nil_append, hw] at h ⊢
  simp [parseValue, skip_cons (show blank 91 = false from rfl), skip_cons hb, h93, h]

theorem parseValue_obj {members ms : List (Bytes × Json)} (hne : members ≠ [])
    (h : parseMembers n (encodeMembers members ++ 125 :: t) = some (ms, t)) :
    parseValue (n + 1) (encode (.obj members) ++ t) = some (.obj ms, t) := by
  obtain ⟨⟨k, v⟩, rest, rfl⟩ := List.exists_cons_of_ne_nil hne
  obtain ⟨w, hw⟩ : ∃ w, encodeMembers ((k, v) :: rest) ++ 125 :: t = 34 :: w := by
    cases rest with
    | nil => exact ⟨_, by rw [encodeMembers, quote, List.cons_append, List.cons_append, List.cons_append]⟩
    | cons m rest => exact ⟨_, by rw [encodeMembers_cons, quote, List.cons_append,
        List.cons_append, List.cons_append, List.cons_append]⟩
  simp only [encode, List.cons_append, List.append_assoc, List.nil_append, hw] at h ⊢
  simp [parseValue, skip_cons (show blank 123 = false from rfl),
    skip_cons (show blank 34 = false from rfl), h]

mutual

theorem parseValue_encode : ∀ (j : Json) (n : Nat) (t : Bytes), (encode j).length ≤ n →
    NoDigit t → parseValue n (encode j ++ t) = some (clean j, t)
  | .null, 0, t, hn, _ => by simp [encode, ascii] at hn
  | .null, n + 1, t, _, _ => by
      simp [encode, ascii, parseValue, skip, blank, literal, clean]
  | .bool b, 0, t, hn, _ => by cases b <;> simp [encode, ascii] at hn
  | .bool b, n + 1, t, _, _ => by
      cases b <;> simp [encode, ascii, parseValue, skip, blank, literal, clean]
  | .num k, 0, t, hn, _ => by
      obtain ⟨b, u, h, -⟩ := integer_head k
      simp [encode, h] at hn
  | .num k, n + 1, t, _, ht => by simpa [encode, clean] using parseValue_num n k ht
  | .str s, 0, t, hn, _ => by simp [encode, quote] at hn
  | .str s, n + 1, t, _, _ => by
      obtain ⟨u, hu, hs⟩ := parseString_quote s t
      simp [encode, clean, hu, parseValue, skip_cons (show blank 34 = false from rfl), hs]
  | .arr [], 0, t, hn, _ => by simp [encode] at hn
  | .arr [], n + 1, t, _, _ => by
      simp [encode, encodeItems, clean, cleanItems, parseValue, skip, blank]
  | .arr (v :: vs), 0, t, hn, _ => by simp [encode] at hn
  | .arr (v :: vs), n + 1, t, hn, _ => by
      have hi := parseItems_encode v vs n t (by simp [encode] at hn; omega)
      simpa [clean] using parseValue_arr (by simp) hi
  | .obj [], 0, t, hn, _ => by simp [encode] at hn
  | .obj [], n + 1, t, _, _ => by
      simp [encode, encodeMembers, clean, cleanMembers, parseValue, skip, blank]
  | .obj ((k, v) :: ms), 0, t, hn, _ => by simp [encode] at hn
  | .obj ((k, v) :: ms), n + 1, t, hn, _ => by
      have hi := parseMembers_encode k v ms n t (by simp [encode] at hn; omega)
      simpa [clean] using parseValue_obj (by simp) hi

theorem parseItems_encode : ∀ (v : Json) (vs : List Json) (n : Nat) (t : Bytes),
    (encodeItems (v :: vs)).length + 1 ≤ n →
    parseItems n (encodeItems (v :: vs) ++ 93 :: t) = some (cleanItems (v :: vs), t)
  | v, [], 0, t, hn => by omega
  | v, [], n + 1, t, hn => by
      rw [encodeItems] at hn ⊢
      exact parseItems_last (parseValue_encode v n (93 :: t) (by omega) (noDigit_cons rfl t))
  | v, w :: vs, 0, t, hn => by omega
  | v, w :: vs, n + 1, t, hn => by
      rw [encodeItems_cons] at hn ⊢
      simp only [List.length_append, List.length_cons, List.append_assoc, List.cons_append] at hn ⊢
      exact parseItems_more (parseValue_encode v n _ (by omega) (noDigit_cons rfl _))
        (parseItems_encode w vs n t (by omega))

theorem parseMembers_encode : ∀ (k : Bytes) (v : Json) (ms : List (Bytes × Json)) (n : Nat)
    (t : Bytes), (encodeMembers ((k, v) :: ms)).length + 1 ≤ n →
    parseMembers n (encodeMembers ((k, v) :: ms) ++ 125 :: t) = some (cleanMembers ((k, v) :: ms), t)
  | k, v, [], 0, t, hn => by omega
  | k, v, [], n + 1, t, hn => by
      rw [encodeMembers] at hn ⊢
      simp only [List.length_append, List.length_cons, List.append_assoc, List.cons_append] at hn ⊢
      exact parseMembers_last (parseValue_encode v n (125 :: t) (by omega) (noDigit_cons rfl t))
  | k, v, (k', w) :: ms, 0, t, hn => by omega
  | k, v, (k', w) :: ms, n + 1, t, hn => by
      rw [encodeMembers_cons] at hn ⊢
      simp only [List.length_append, List.length_cons, List.append_assoc, List.cons_append] at hn ⊢
      exact parseMembers_more (parseValue_encode v n _ (by omega) (noDigit_cons rfl _))
        (parseMembers_encode k' w ms n t (by omega))

end

theorem parse_encode (j : Json) (ht : ∀ b ∈ t, blank b = true) : parse (encode j ++ t) = some (clean j) := by
  have hd : NoDigit t := by
    intro b hb
    by_contra h
    have hbl := ht b (List.mem_of_mem_head? hb)
    rw [(digit_not_blank (.inl (by simpa using h))).1] at hbl
    exact absurd hbl (by simp)
  have hs : skip t = [] := List.dropWhile_eq_nil_iff.mpr ht
  rw [parse, parseValue_encode j _ t (by simp; omega) hd]
  simp [hs]

theorem high_ne_newline (h : 0x80 ≤ b) : (10 : UInt8) ≠ b := by
  rintro rfl
  exact absurd h (by decide)

theorem newline_not_mem_quoteAscii (b : UInt8) : (10 : UInt8) ∉ quoteAscii b := by
  have hhex : ∀ n < 16, (10 : UInt8) ≠ hexDigit n := by decide
  have hb := b.toNat_lt
  unfold quoteAscii
  split_ifs with h1 h2 h3 h4 h5 h6 h7
  · rcases h1 with rfl | rfl <;> decide
  · decide
  · decide
  · decide
  · decide
  · decide
  · simp [hhex (b.toNat / 16) (by omega), hhex (b.toNat % 16) (by omega)]
  · simpa using fun h => h4 h.symm

theorem newline_not_mem_quoteRune (hw : width c = c.length) : (10 : UInt8) ∉ quoteRune (some c) := by
  rcases c with _ | ⟨b, _ | ⟨b1, u⟩⟩
  · decide
  · exact newline_not_mem_quoteAscii b
  · simp only [quoteRune]
    split_ifs
    · decide
    · decide
    · exact fun h => high_ne_newline (chunk_high (by simp) hw _ h) rfl

theorem newline_not_mem_quote (s : Bytes) : (10 : UInt8) ∉ quote s := by
  have h : (10 : UInt8) ∉ (runes s).flatMap quoteRune := by
    induction s using runes_induction with
    | nil => simp
    | invalid b t hw ih =>
      simp only [runes_invalid hw, List.flatMap_cons, List.mem_append, not_or]
      exact ⟨by decide, ih⟩
    | chunk c t hne hw ih =>
      simp only [runes_chunk hne hw, List.flatMap_cons, List.mem_append, not_or]
      exact ⟨newline_not_mem_quoteRune hw, ih⟩
  simpa [quote] using h

theorem newline_not_mem_integer (n : Int) : (10 : UInt8) ∉ integer n := by
  have hdecimal : (10 : UInt8) ∉ decimal n.natAbs := fun h => absurd (decimal_digits _ 10 h) (by decide)
  unfold integer
  split_ifs
  · simpa using hdecimal
  · exact hdecimal

mutual

theorem newline_not_mem_encode : ∀ j : Json, (10 : UInt8) ∉ encode j
  | .null => by decide
  | .bool b => by cases b <;> decide
  | .num n => by simpa [encode] using newline_not_mem_integer n
  | .str s => by simpa [encode] using newline_not_mem_quote s
  | .arr items => by simpa [encode] using newline_not_mem_items items
  | .obj members => by simpa [encode] using newline_not_mem_members members

theorem newline_not_mem_items : ∀ vs : List Json, (10 : UInt8) ∉ encodeItems vs
  | [] => by simp [encodeItems]
  | [v] => by simpa [encodeItems] using newline_not_mem_encode v
  | v :: w :: vs => by
      simpa [encodeItems_cons] using ⟨newline_not_mem_encode v, newline_not_mem_items (w :: vs)⟩

theorem newline_not_mem_members : ∀ ms : List (Bytes × Json), (10 : UInt8) ∉ encodeMembers ms
  | [] => by simp [encodeMembers]
  | [(k, v)] => by
      simpa [encodeMembers] using ⟨newline_not_mem_quote k, newline_not_mem_encode v⟩
  | (k, v) :: m :: ms => by
      simpa [encodeMembers_cons] using
        ⟨newline_not_mem_quote k, newline_not_mem_encode v, newline_not_mem_members (m :: ms)⟩

end

theorem valid_quoteAscii (h : b < 0x80) : Valid (quoteAscii b) := by
  have hall : ∀ n < 128, Valid (quoteAscii (UInt8.ofNat n)) := by decide +kernel
  simpa using hall b.toNat (UInt8.lt_iff_toNat_lt.mp h)

theorem valid_quoteRune (hne : c ≠ []) (hw : width c = c.length) : Valid (quoteRune (some c)) := by
  rcases c with _ | ⟨b, _ | ⟨b1, u⟩⟩
  · exact absurd rfl hne
  · exact valid_quoteAscii (width_one hw)
  · simp only [quoteRune]
    split_ifs
    · decide
    · decide
    · simpa using (valid_chunk hne hw []).mpr (by decide)

theorem valid_quote (s : Bytes) : Valid (quote s) := by
  have h : Valid ((runes s).flatMap quoteRune) := by
    induction s using runes_induction with
    | nil => decide
    | invalid b t hw ih =>
      rw [runes_invalid hw, List.flatMap_cons]
      exact (valid_append _ (by decide)).mpr ih
    | chunk c t hne hw ih =>
      rw [runes_chunk hne hw, List.flatMap_cons]
      exact (valid_append _ (valid_quoteRune hne hw)).mpr ih
  exact (valid_append (s := [34]) _ (by decide)).mpr ((valid_append _ h).mpr (by decide))

theorem valid_integer (n : Int) : Valid (integer n) := by
  have hdigit : ∀ b : UInt8, isDigit b = true → b < 0x80 := by decide +kernel
  have hdecimal := decimal_digits n.natAbs
  refine valid_ascii _ fun b hb => ?_
  unfold integer at hb
  split_ifs at hb
  · rcases List.mem_cons.mp hb with rfl | hb
    · decide
    · exact hdigit b (hdecimal b hb)
  · exact hdigit b (hdecimal b hb)

theorem length_le_quoteRune (hne : c ≠ []) : c.length ≤ (quoteRune (some c)).length := by
  rcases c with _ | ⟨b, _ | ⟨b1, u⟩⟩
  · exact absurd rfl hne
  · exact List.length_pos_iff.mpr (quoteRune_ne_nil hne)
  · simp only [quoteRune]
    split_ifs with h1 h2
    · rw [h1]
      decide
    · rw [h2]
      decide
    · exact le_rfl

theorem length_le_quote (s : Bytes) : s.length ≤ (quote s).length := by
  have h : s.length ≤ ((runes s).flatMap quoteRune).length := by
    induction s using runes_induction with
    | nil => simp
    | invalid b t hw ih =>
      have hl : (quoteRune none).length = 6 := rfl
      simp only [runes_invalid hw, List.flatMap_cons, List.length_append, List.length_cons]
      omega
    | chunk c t hne hw ih =>
      have hl := length_le_quoteRune hne
      simp only [runes_chunk hne hw, List.flatMap_cons, List.length_append]
      omega
  simp only [quote, List.length_append, List.length_cons]
  omega

end CloudBurrow.JsonText
