import CloudBurrow.Codec.ParseInt
import CloudBurrow.Storage.UploadBody

namespace CloudBurrow.Storage

open Utf8 JsonText ParseInt

structure ByteRange where
  start : Int
  stop : Int
  part : Bool
  ok : Bool
deriving DecidableEq

def wholeObject (size : Int) : ByteRange := ⟨0, size, false, true⟩

def unsatisfiable : ByteRange := ⟨0, 0, false, false⟩

def lastBytes (b : Bytes) (size : Int) : ByteRange :=
  match parseInt b with
  | none => wholeObject size
  | some n =>
    if n ≤ 0 then ⟨0, size, false, n ≠ 0⟩
    else if size = 0 then unsatisfiable
    else ⟨size - min n size, size, true, true⟩

def bytesFrom (a b : Bytes) (size : Int) : ByteRange :=
  match parseInt a with
  | none => wholeObject size
  | some first =>
    if first ≥ size then unsatisfiable
    else if b = [] then ⟨first, size, true, true⟩
    else
      match parseInt b with
      | none => wholeObject size
      | some last =>
        if last < first then wholeObject size
        -- `last+1` is an int64 sum
        else ⟨first, if wrap (last + 1) < size then wrap (last + 1) else size, true, true⟩

def parseRange (h : Bytes) (size : Int) : ByteRange :=
  match afterWord "bytes=" h with
  | none => wholeObject size
  | some spec =>
    if 44 ∈ spec ∨ 45 ∉ spec then wholeObject size
    else
      let a := spec.takeWhile (· ≠ 45)
      let b := (spec.dropWhile (· ≠ 45)).tail
      if a = [] then lastBytes b size else bytesFrom a b size

structure Media where
  content : Bytes
  small : content.length < 2 ^ 63

namespace Media
variable (o : Media)

def size : Int := o.content.length

def slice (i j : Int) : Bytes := (o.content.drop i.toNat).take (j - i).toNat

theorem size_nonneg : 0 ≤ o.size := Int.natCast_nonneg _

theorem size_lt : o.size < 2 ^ 63 := by
  unfold size
  exact_mod_cast o.small

end Media

structure MediaReply where
  status : Nat
  contentRange : Option Bytes
  contentLength : Option Bytes
  body : Bytes
deriving DecidableEq

def serveMedia (header : Bytes) (o : Media) : MediaReply :=
  let r := parseRange header o.size
  if !r.ok then
    { status := 416, contentRange := some (ascii "bytes */" ++ integer o.size),
      contentLength := none, body := ascii "The requested range cannot be satisfied." }
  else
    { status := if r.part then 206 else 200
      contentRange :=
        if r.part then
          some (ascii "bytes " ++ integer r.start ++ ascii "-" ++ integer (wrap (r.stop - 1)) ++
            ascii "/" ++ integer o.size)
        else none
      contentLength := some (integer (wrap (r.stop - r.start)))
      body := o.slice r.start r.stop }

inductive ReadError where
  | outOfRange | invalidArgument | refused (status : Nat)
deriving DecidableEq

def span (size off n : Int) : Except ReadError (Int × Int) :=
  let off := if off < 0 then max 0 (wrap (size + off)) else off
  if off > size then .error .outOfRange
  else if n < 0 then .error .invalidArgument
  else .ok (off, if n > 0 ∧ n < size - off then n else size - off)

def readMedia (o : Media) (off n : Int) : Except ReadError Bytes :=
  if n = 0 then .ok []
  else
    let header :=
      if n < 0 then ascii "bytes=" ++ integer off ++ ascii "-"
      else ascii "bytes=" ++ integer off ++ ascii "-" ++ integer (wrap (off + n - 1))
    let reply := serveMedia header o
    if reply.status < 300 then .ok reply.body else .error (.refused reply.status)

section Headers
variable {a b h : Bytes} {size : Int}

theorem afterWord_append (word : String) (rest : Bytes) :
    afterWord word (ascii word ++ rest) = some rest := by
  have hlen : word.length = (ascii word).length := by simp [ascii, String.length_toList]
  simp [afterWord, hlen]

theorem eq_append_of_afterWord {word : String} {s rest : Bytes} (hs : afterWord word s = some rest) :
    s = ascii word ++ rest := by
  unfold afterWord at hs
  split_ifs at hs with hpre
  obtain ⟨t, rfl⟩ := List.isPrefixOf_iff_prefix.mp hpre
  have hlen : word.length = (ascii word).length := by simp [ascii, String.length_toList]
  rw [Option.some.injEq, hlen, List.drop_left] at hs
  rw [hs]

theorem takeWhile_dash (ha : 45 ∉ a) : (a ++ 45 :: b).takeWhile (· ≠ 45) = a := by
  rw [List.takeWhile_append_of_pos]
  · simp
  · intro x hx
    simp only [decide_eq_true_eq]
    exact fun hdash => ha (hdash ▸ hx)

theorem dropWhile_dash (ha : 45 ∉ a) : (a ++ 45 :: b).dropWhile (· ≠ 45) = 45 :: b := by
  rw [List.dropWhile_append_of_pos]
  · simp
  · intro x hx
    simp only [decide_eq_true_eq]
    exact fun hdash => ha (hdash ▸ hx)

theorem parseRange_dash (ha : 45 ∉ a) (hcomma : 44 ∉ a ++ b) :
    parseRange (ascii "bytes=" ++ (a ++ 45 :: b)) size =
      if a = [] then lastBytes b size else bytesFrom a b size := by
  have hspec : ¬ (44 ∈ a ++ 45 :: b ∨ 45 ∉ a ++ 45 :: b) := by
    simp only [List.mem_append, List.mem_cons] at hcomma ⊢
    push Not at hcomma ⊢
    exact ⟨⟨hcomma.1, by decide, hcomma.2⟩, Or.inr (Or.inl trivial)⟩
  simp only [parseRange, afterWord_append, if_neg hspec, takeWhile_dash ha, dropWhile_dash ha, List.tail_cons]

theorem parseRange_cases (h : Bytes) (size : Int) : parseRange h size = wholeObject size ∨
      ∃ a b, h = ascii "bytes=" ++ (a ++ 45 :: b) ∧ 45 ∉ a ∧ 44 ∉ a ++ b := by
  unfold parseRange
  cases hword : afterWord "bytes=" h with
  | none => exact Or.inl rfl
  | some spec =>
    by_cases hspec : 44 ∈ spec ∨ 45 ∉ spec
    · exact Or.inl (if_pos hspec)
    · push Not at hspec
      obtain ⟨a, b, rfl, ha⟩ := List.eq_append_cons_of_mem hspec.2
      refine Or.inr ⟨a, b, eq_append_of_afterWord hword, ha, ?_⟩
      intro hcomma
      apply hspec.1
      simp only [List.mem_append, List.mem_cons] at hcomma ⊢
      tauto

end Headers

section Properties
variable (h : Bytes) (o : Media)

def NamesLastInt64 : Prop :=
  ∃ a b first, h = ascii "bytes=" ++ (a ++ 45 :: b) ∧ 45 ∉ a ∧ 44 ∉ a ++ b ∧
    parseInt a = some first ∧ first < o.size ∧ parseInt b = some (2 ^ 63 - 1)

def requested (off n : Int) : Bytes :=
  let start := if off < 0 then max 0 (o.size + off) else off
  o.slice start (if n = 0 then o.size else min (start + n) o.size)

structure RangeServed : Prop where
  inside : (parseRange h o.size).ok = true →
    0 ≤ (parseRange h o.size).start ∧
      (parseRange h o.size).start ≤ (parseRange h o.size).stop ∧
        (parseRange h o.size).stop ≤ o.size
  between : ∀ a b first last, h = ascii "bytes=" ++ (a ++ 45 :: b) → 45 ∉ a →
    parseInt a = some first → parseInt b = some last → (parseRange h o.size).part = true →
      (parseRange h o.size).start = first ∧
        (parseRange h o.size).stop = min last (o.size - 1) + 1 ∧
          (serveMedia h o).body = o.slice first (min last (o.size - 1) + 1)
  last : ∀ b n, h = ascii "bytes=" ++ 45 :: b → parseInt b = some n →
    (parseRange h o.size).part = true →
      (parseRange h o.size).start = o.size - min n o.size ∧
        (parseRange h o.size).stop = o.size ∧
          (serveMedia h o).body = o.slice (o.size - min n o.size) o.size
  read : ∀ off n, Fits off → Fits n → ∀ start length, span o.size off n = .ok (start, length) →
    readMedia o start length = .ok (requested o off n) ∧
      requested o off n = o.slice start (start + length)

variable {h o}

theorem lastBytes_inside (b : Bytes) : 0 ≤ (lastBytes b o.size).start ∧
      (lastBytes b o.size).start ≤ (lastBytes b o.size).stop ∧ (lastBytes b o.size).stop ≤ o.size := by
  have hsize := o.size_nonneg
  unfold lastBytes
  split
  · exact ⟨le_rfl, hsize, le_rfl⟩
  · split_ifs with hn hzero
    · exact ⟨le_rfl, hsize, le_rfl⟩
    · exact ⟨le_rfl, le_rfl, hsize⟩
    · refine ⟨?_, ?_, le_rfl⟩ <;> simp only <;> omega

variable {a b : Bytes} {last : Int}

theorem bytesFrom_between {first : Int} (ha : parseInt a = some first)
    (hb : parseInt b = some last) (hfirst : first < o.size) (hlast : first ≤ last) :
    bytesFrom a b o.size =
      ⟨first, if wrap (last + 1) < o.size then wrap (last + 1) else o.size, true, true⟩ := by
  have hne : b ≠ [] := by
    rintro rfl
    simp [parseInt_nil] at hb
  simp only [bytesFrom, ha, hb, if_neg (not_le.mpr hfirst), if_neg hne, if_neg (not_lt.mpr hlast)]

theorem wrap_next (hfits : Fits last) (hlast : last ≠ 2 ^ 63 - 1) : wrap (last + 1) = last + 1 := by
  unfold Fits at hfits
  exact wrap_eq ⟨by omega, by omega⟩

theorem stop_eq (hfits : Fits last) (hlast : last ≠ 2 ^ 63 - 1) :
    (if wrap (last + 1) < o.size then wrap (last + 1) else o.size) = min last (o.size - 1) + 1 := by
  rw [wrap_next hfits hlast]
  split_ifs <;> omega

theorem bytesFrom_cases (a b : Bytes) :
    bytesFrom a b o.size = wholeObject o.size ∨ bytesFrom a b o.size = unsatisfiable ∨
      ∃ first, parseInt a = some first ∧ first < o.size ∧
        ((b = [] ∧ bytesFrom a b o.size = ⟨first, o.size, true, true⟩) ∨
          ∃ last, parseInt b = some last ∧ first ≤ last) := by
  cases ha : parseInt a with
  | none => exact Or.inl (by simp only [bytesFrom, ha])
  | some first =>
    by_cases hfirst : first < o.size
    · by_cases hb : b = []
      · refine Or.inr (Or.inr ⟨first, rfl, hfirst, Or.inl ⟨hb, ?_⟩⟩)
        simp only [bytesFrom, ha, if_neg (not_le.mpr hfirst), if_pos hb]
      · cases hlast : parseInt b with
        | none =>
          exact Or.inl (by simp only [bytesFrom, ha, hlast, if_neg (not_le.mpr hfirst), if_neg hb])
        | some last =>
          by_cases hle : first ≤ last
          · exact Or.inr (Or.inr ⟨first, rfl, hfirst, Or.inr ⟨last, rfl, hle⟩⟩)
          · refine Or.inl ?_
            simp only [bytesFrom, ha, hlast, if_neg (not_le.mpr hfirst), if_neg hb, if_pos (not_le.mp hle)]
    · exact Or.inr (Or.inl (by simp only [bytesFrom, ha, if_pos (not_lt.mp hfirst)]))

theorem bytesFrom_inside (ha : 45 ∉ a)
    (hlast : ∀ first, parseInt a = some first → first < o.size → parseInt b ≠ some (2 ^ 63 - 1)) :
    0 ≤ (bytesFrom a b o.size).start ∧ (bytesFrom a b o.size).start ≤ (bytesFrom a b o.size).stop ∧
        (bytesFrom a b o.size).stop ≤ o.size := by
  have hsize := o.size_nonneg
  rcases bytesFrom_cases (o := o) a b with hall | hnone | ⟨first, hfirst, hlt, hrest⟩
  · rw [hall]
    exact ⟨le_rfl, hsize, le_rfl⟩
  · rw [hnone]
    exact ⟨le_rfl, le_rfl, hsize⟩
  · have hnonneg : 0 ≤ first := nonneg_of_parseInt ha hfirst
    rcases hrest with ⟨-, hopen⟩ | ⟨last, hb, hle⟩
    · rw [hopen]
      exact ⟨hnonneg, hlt.le, le_rfl⟩
    · have hne : last ≠ 2 ^ 63 - 1 := fun hmax => hlast first hfirst hlt (hmax ▸ hb)
      rw [bytesFrom_between hfirst hb hlt hle, stop_eq (fits_of_parseInt hb) hne]
      refine ⟨hnonneg, ?_, ?_⟩ <;> simp only <;> omega

theorem serveMedia_body (hok : (parseRange h o.size).ok = true) :
    (serveMedia h o).body = o.slice (parseRange h o.size).start (parseRange h o.size).stop := by
  simp [serveMedia, hok]

theorem ok_of_part (hpart : (parseRange h o.size).part = true) : (parseRange h o.size).ok = true := by
  rcases parseRange_cases h o.size with hall | ⟨a, b, rfl, ha, hcomma⟩
  · rw [hall] at hpart
    exact absurd hpart (by simp [wholeObject])
  · rw [parseRange_dash ha hcomma] at hpart ⊢
    split_ifs at hpart ⊢ with hempty
    · unfold lastBytes at hpart ⊢
      split at hpart
      · simp [wholeObject] at hpart
      · split_ifs at hpart ⊢ <;> simp_all [unsatisfiable]
    · rcases bytesFrom_cases (o := o) a b with hall | hnone | ⟨first, hfirst, hlt, hopen | hrest⟩
      · simp [hall, wholeObject] at hpart
      · simp [hnone, unsatisfiable] at hpart
      · rw [hopen.2]
      · obtain ⟨last, hb, hle⟩ := hrest
        rw [bytesFrom_between hfirst hb hlt hle]

theorem parseRange_of_part (ha : 45 ∉ a)
    (hpart : (parseRange (ascii "bytes=" ++ (a ++ 45 :: b)) o.size).part = true) :
    44 ∉ a ++ b := by
  intro hcomma
  have hspec : 44 ∈ a ++ 45 :: b ∨ 45 ∉ a ++ 45 :: b := by
    simp only [List.mem_append, List.mem_cons] at hcomma ⊢
    tauto
  simp only [parseRange, afterWord_append, if_pos hspec, wholeObject] at hpart
  exact absurd hpart (by decide)

variable {n : Int}

theorem parseInt_ne_nil {text : Bytes} (h : parseInt text = some n) : text ≠ [] := by
  rintro rfl
  simp [parseInt_nil] at h

theorem served_between (hmax : ¬ NamesLastInt64 h o) {first : Int}
    (hh : h = ascii "bytes=" ++ (a ++ 45 :: b)) (ha : 45 ∉ a) (hfirst : parseInt a = some first)
    (hb : parseInt b = some last) (hpart : (parseRange h o.size).part = true) :
    (parseRange h o.size).start = first ∧ (parseRange h o.size).stop = min last (o.size - 1) + 1 := by
  subst hh
  have hcomma := parseRange_of_part ha hpart
  rw [parseRange_dash ha hcomma, if_neg (parseInt_ne_nil hfirst)] at hpart ⊢
  rcases bytesFrom_cases (o := o) a b with hall | hnone | ⟨first', hfirst', hlt, hrest⟩
  · simp [hall, wholeObject] at hpart
  · simp [hnone, unsatisfiable] at hpart
  · obtain rfl : first = first' := Option.some.inj (hfirst.symm.trans hfirst')
    rcases hrest with ⟨hnil, -⟩ | ⟨last', hb', hle⟩
    · exact absurd hnil (parseInt_ne_nil hb)
    · obtain rfl : last = last' := Option.some.inj (hb.symm.trans hb')
      have hne : last ≠ 2 ^ 63 - 1 := fun heq =>
        hmax ⟨a, b, first, rfl, ha, hcomma, hfirst, hlt, heq ▸ hb⟩
      rw [bytesFrom_between hfirst hb hlt hle, stop_eq (fits_of_parseInt hb) hne]
      exact ⟨rfl, rfl⟩

theorem served_last (hh : h = ascii "bytes=" ++ 45 :: b)
    (hn : parseInt b = some n) (hpart : (parseRange h o.size).part = true) :
    (parseRange h o.size).start = o.size - min n o.size ∧ (parseRange h o.size).stop = o.size := by
  have hh' : h = ascii "bytes=" ++ ([] ++ 45 :: b) := hh
  subst hh'
  have hcomma := parseRange_of_part List.not_mem_nil hpart
  rw [parseRange_dash List.not_mem_nil hcomma, if_pos rfl] at hpart ⊢
  simp only [lastBytes, hn] at hpart ⊢
  split_ifs at hpart ⊢ with hneg hzero
  · simp [unsatisfiable] at hpart
  · exact ⟨rfl, rfl⟩

theorem not_mem_decimal {c : UInt8} (hc : isDigit c = false) (n : Nat) : c ∉ decimal n := by
  intro hmem
  rw [decimal_digits n c hmem] at hc
  exact absurd hc (by decide)

theorem readMedia_slice {start length : Int} (hstart : 0 ≤ start) (hlength : 0 ≤ length)
    (hinside : start + length ≤ o.size) :
    readMedia o start length = .ok (o.slice start (start + length)) := by
  have hsmall := o.size_lt
  rcases hlength.eq_or_lt with hzero | hpos
  · subst hzero
    simp [readMedia, Media.slice]
  obtain ⟨i, rfl⟩ := Int.eq_ofNat_of_zero_le hstart
  obtain ⟨j, hj⟩ := Int.eq_ofNat_of_zero_le (show 0 ≤ (i : Int) + length - 1 by omega)
  have hwrap : wrap ((i : Int) + length - 1) = j := by
    rw [hj]
    exact wrap_eq ⟨by omega, by omega⟩
  have hheader : ascii "bytes=" ++ integer (i : Int) ++ ascii "-" ++ integer (j : Int) =
      ascii "bytes=" ++ (decimal i ++ 45 :: decimal j) := by
    have hdash : ascii "-" = [45] := by decide
    simp [integer, hdash, show ¬ (i : Int) < 0 by omega, show ¬ (j : Int) < 0 by omega]
  have hrange : parseRange (ascii "bytes=" ++ (decimal i ++ 45 :: decimal j)) o.size =
      ⟨i, (i : Int) + length, true, true⟩ := by
    have hi : parseInt (decimal i) = some (i : Int) := parseInt_decimal (by omega)
    have hjText : parseInt (decimal j) = some (j : Int) := parseInt_decimal (by omega)
    rw [parseRange_dash (not_mem_decimal (by decide) i), if_neg (parseInt_ne_nil hi),
      bytesFrom_between hi hjText (by omega) (by omega),
      stop_eq (fits_of_parseInt hjText) (by omega)]
    · congr 1
      omega
    · simp only [List.mem_append, not_or]
      exact ⟨not_mem_decimal (by decide) i, not_mem_decimal (by decide) j⟩
  simp only [readMedia, if_neg hpos.ne', if_neg hpos.not_gt, hwrap, hheader, serveMedia, hrange]
  rfl

theorem span_spec {off start length : Int} (hoff : Fits off) (hn : Fits n)
    (hspan : span o.size off n = .ok (start, length)) :
    0 ≤ start ∧ 0 ≤ length ∧ start + length ≤ o.size ∧
      requested o off n = o.slice start (start + length) := by
  have hsize := o.size_nonneg
  have hsmall := o.size_lt
  unfold Fits at hoff hn
  have hstart : (if off < 0 then max 0 (wrap (o.size + off)) else off) =
      if off < 0 then max 0 (o.size + off) else off := by
    split_ifs with hneg
    · rw [wrap_eq ⟨by omega, by omega⟩]
    · rfl
  simp only [span, hstart] at hspan
  simp only [requested]
  generalize hfrom : (if off < 0 then max 0 (o.size + off) else off) = first at hspan ⊢
  have hfirst : 0 ≤ first := by
    rw [← hfrom]
    split_ifs <;> omega
  split_ifs at hspan with hpast hneg hshort
  · obtain ⟨rfl, rfl⟩ : first = start ∧ n = length := by simpa using hspan
    refine ⟨hfirst, by omega, by omega, ?_⟩
    rw [if_neg (by omega), min_eq_left (by omega)]
  · obtain ⟨rfl, rfl⟩ : first = start ∧ o.size - first = length := by simpa using hspan
    refine ⟨hfirst, by omega, by omega, ?_⟩
    rw [add_sub_cancel]
    split_ifs with hzero
    · rfl
    · rw [min_eq_right (by omega)]

theorem not_inside_of_namesLastInt64 (hmax : NamesLastInt64 h o) : (parseRange h o.size).ok = true ∧
      (parseRange h o.size).stop < (parseRange h o.size).start := by
  obtain ⟨a, b, first, rfl, ha, hcomma, hfirst, hlt, hb⟩ := hmax
  have hsize := o.size_nonneg
  have hsmall := o.size_lt
  have hnonneg : 0 ≤ first := nonneg_of_parseInt ha hfirst
  have hwrap : wrap (2 ^ 63 - 1 + 1) = -2 ^ 63 := by decide
  rw [parseRange_dash ha hcomma, if_neg (parseInt_ne_nil hfirst),
    bytesFrom_between hfirst hb hlt (by omega), hwrap, if_pos (by omega)]
  exact ⟨rfl, by simp only; omega⟩

theorem rangeServed_iff (h : Bytes) (o : Media) : RangeServed h o ↔ ¬ NamesLastInt64 h o := by
  constructor
  · intro hserved hmax
    obtain ⟨hok, hback⟩ := not_inside_of_namesLastInt64 hmax
    exact absurd (hserved.inside hok).2.1 (not_le.mpr hback)
  · intro hmax
    refine ⟨?_, ?_, ?_, ?_⟩
    · intro hok
      rcases parseRange_cases h o.size with hall | ⟨a, b, rfl, ha, hcomma⟩
      · rw [hall]
        exact ⟨le_rfl, o.size_nonneg, le_rfl⟩
      · rw [parseRange_dash ha hcomma]
        split_ifs
        · exact lastBytes_inside b
        · exact bytesFrom_inside ha fun first hfirst hlt hb =>
            hmax ⟨a, b, first, rfl, ha, hcomma, hfirst, hlt, hb⟩
    · intro a b first last hh ha hfirst hb hpart
      have hrange := served_between hmax hh ha hfirst hb hpart
      refine ⟨hrange.1, hrange.2, ?_⟩
      rw [serveMedia_body (ok_of_part hpart), hrange.1, hrange.2]
    · intro b n hh hn hpart
      have hrange := served_last hh hn hpart
      refine ⟨hrange.1, hrange.2, ?_⟩
      rw [serveMedia_body (ok_of_part hpart), hrange.1, hrange.2]
    · intro off n hoff hn start length hspan
      obtain ⟨hstart, hlength, hinside, hbytes⟩ := span_spec hoff hn hspan
      rw [readMedia_slice hstart hlength hinside, hbytes]
      exact ⟨rfl, rfl⟩

theorem parseRange_backwards : parseRange (ascii "bytes=0-9223372036854775807") 5 = ⟨0, -2 ^ 63, true, true⟩ ∧
      (serveMedia (ascii "bytes=0-9223372036854775807") ⟨ascii "hello", by decide⟩).body = [] ∧
        ¬ RangeServed (ascii "bytes=0-9223372036854775807") ⟨ascii "hello", by decide⟩ := by
  refine ⟨by decide +kernel, by decide +kernel, ?_⟩
  intro hserved
  exact absurd (hserved.inside (by decide +kernel)) (by decide +kernel)

end Properties

end CloudBurrow.Storage
