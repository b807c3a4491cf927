import Aarch64.Cxx.Algorithm
import Aarch64.Lib.Bytes
import Aarch64.Lib.Numeral

/-!
# Numbers on an output stream

`common/stream.cc`. Memory is a list of characters and pointers are indices into it; an
access that is out of range is `none`. The state of a stream is `σ`.
-/

namespace Aarch64.Cxx

def digit : List UInt8 := Bytes.ofString "0123456789abcdef"

/-- The loop that writes the digits, least significant first. -/
def digitLoop (m : List UInt8) (e base x : Nat) : Option (List UInt8 × Nat) :=
  if x = 0 then some (m, e)
  else if base = 0 then none
  else if e < m.length then do
    let c ← digit[x % base]?
    digitLoop (m.set e c) (e + 1) base (x / base)
  else none
termination_by m.length - e
decreasing_by
  rw [List.length_set]
  omega

/-- The loop that turns the digits around. -/
def turnLoop (m : List UInt8) (l r : Nat) : Option (List UInt8) :=
  if l < r then do
    let c ← m[l]?
    let d ← m[r - 1]?
    turnLoop ((m.set l d).set (r - 1) c) (l + 1) (r - 1)
  else some m
termination_by r - l

def formatNumber (m : List UInt8) (buffer base x : Nat) : Option (List UInt8 × Nat) :=
  if x = 0 then
    if buffer < m.length then some (m.set buffer '0'.toUInt8, buffer + 1) else none
  else do
    let (m, e) ← digitLoop m buffer base x
    let m ← turnLoop m buffer e
    return (m, e)

/-- The virtual functions. `PutN` is given the characters themselves, as many as its count
says. -/
structure OutputStream (σ : Type) where
  put : σ → UInt8 → Int × σ
  putN : σ → List UInt8 → Int × σ

namespace OutputStream

variable {σ : Type}

/-- The loop of `OutputStream::PutN` behind `i` characters. -/
def putNLoop (put : σ → UInt8 → Int × σ) (s : σ) (i : Int) : List UInt8 → Int × σ
  | [] => (i, s)
  | c :: data =>
      let (ret, s) := put s c
      if ret < 0 then (if 0 < i then i else ret, s) else putNLoop put s (i + 1) data

/-- A stream that leaves `PutN` to `OutputStream`. -/
def ofPut (put : σ → UInt8 → Int × σ) : OutputStream σ := ⟨put, fun s => putNLoop put s 0⟩

/-- The conversion of a `size_t` to `int`. -/
def toInt (n : Nat) : Int := Int.bmod n (2 ^ 32)

/-- The loop of `Write`. The count for `PutN` is converted to `int`. A negative one is `none`,
for the streams do different things with it. A round that still has to run without fuel left
stands for a loop that does not end. -/
def write (out : OutputStream σ) (s : σ) (data : List UInt8) (written : Nat) : Nat → Option σ
  | 0 => if written < data.length then none else some s
  | fuel + 1 =>
      if written < data.length then
        let n := toInt (data.length - written)
        if n < 0 then none
        else
          let (ret, s) := out.putN s ((data.drop written).take n.toNat)
          if ret < 0 then some s else write out s data (written + ret.toNat) fuel
      else some s

/-- `operator<<(OutputStream&, unsigned long long)`, whose buffer has any contents at first. -/
def insertUnsigned (out : OutputStream σ) (s : σ) (buffer : List UInt8) (x fuel : Nat) :
    Option σ := do
  let (buffer, e) ← formatNumber buffer 0 10 x
  out.write s (buffer.take e) 0 fuel

/-- `operator<<(OutputStream&, const void*)`. -/
def insertPointer (out : OutputStream σ) (s : σ) (x fuel : Nat) : Option σ := do
  let buffer := Bytes.ofString "0x" ++ List.replicate 126 0
  let (buffer, e) ← formatNumber buffer 2 16 x
  out.write s (buffer.take e) 0 fuel

end OutputStream

/-! ## The characters of a number -/

theorem turnLoop_eq (m : List UInt8) {l r : Nat} (h : l < r) :
    turnLoop m l r = (iterSwap m l (r - 1)).bind fun m => turnLoop m (l + 1) (r - 1) := by
  rw [turnLoop, if_pos h, iterSwap]
  simp only [Option.bind_eq_bind, Option.bind_assoc]
  rfl

theorem iterSwap_self {m : List UInt8} {a : Nat} (h : a < m.length) : iterSwap m a a = some m := by
  rw [iterSwap, List.getElem?_eq_getElem h]
  simp only [Option.bind_eq_bind, Option.bind_some, List.set_getElem_self]
  rfl

/-- The two ends change places, so the induction takes two characters off the part that is
turned around. The character in the middle of an odd number changes places with itself. -/
theorem turnLoop_spec (n : Nat) : ∀ (pre mid post : List UInt8), mid.length = n →
    turnLoop (pre ++ (mid ++ post)) pre.length (pre.length + n) =
      some (pre ++ (mid.reverse ++ post)) := by
  induction n using Nat.strongRecOn with
  | _ n ih =>
      rintro pre mid post rfl
      cases mid with
      | nil =>
          rw [turnLoop, if_neg (by simp)]
          rfl
      | cons a rest =>
          rw [turnLoop_eq _ (by simp)]
          rcases List.eq_nil_or_concat rest with rfl | ⟨inner, b, rfl⟩
          · have hlast : pre.length + [a].length - 1 = pre.length := rfl
            rw [hlast, iterSwap_self (by simp), Option.bind_some, turnLoop, if_neg (by omega)]
            rfl
          · rw [List.concat_eq_append]
            have hlast : pre.length + (a :: (inner ++ [b])).length - 1 =
                pre.length + 1 + inner.length := by
              rw [List.length_cons, List.length_append, List.length_singleton]
              omega
            have hswap := iterSwap_spec pre inner post a b
            have hinner := ih inner.length (by simp) (pre ++ [b]) inner (a :: post) rfl
            rw [List.length_append, List.length_singleton] at hinner
            simp only [List.append_assoc, List.cons_append, hlast, List.nil_append] at hinner ⊢
            rw [hswap, Option.bind_some, hinner]
            simp

/-- The digits come least significant first, so the induction divides the number. -/
theorem digitLoop_spec {base : Nat} (hbase : 1 < base) (hlen : base ≤ digit.length) (x : Nat) :
    ∀ (pre mid post : List UInt8), mid.length = (Nat.digits base x).length →
      digitLoop (pre ++ (mid ++ post)) pre.length base x =
        some (pre ++ ((Nat.digits base x).filterMap (digit[·]?) ++ post),
          pre.length + (Nat.digits base x).length) := by
  induction x using Nat.strongRecOn with
  | _ x ih =>
      intro pre mid post hmid
      rw [digitLoop]
      by_cases hx : x = 0
      · subst hx
        rw [Nat.digits_zero] at hmid ⊢
        rw [if_pos rfl, List.eq_nil_of_length_eq_zero hmid]
        rfl
      · have hlt : x % base < digit.length := (Nat.mod_lt x (by omega)).trans_le hlen
        have hdigit : digit[x % base]? = some digit[x % base] := List.getElem?_eq_getElem hlt
        rw [Nat.digits_def' hbase (Nat.pos_of_ne_zero hx)] at hmid ⊢
        cases mid with
        | nil => cases hmid
        | cons a mid =>
            have hrest := ih (x / base) (Nat.div_lt_self (Nat.pos_of_ne_zero hx) hbase)
              (pre ++ [digit[x % base]]) mid post (Nat.succ.inj hmid)
            rw [List.length_append, List.length_singleton] at hrest
            have hset : (pre ++ (a :: mid ++ post)).set pre.length digit[x % base] =
                pre ++ [digit[x % base]] ++ (mid ++ post) := by
              simp
            rw [if_neg hx, if_neg (by omega), if_pos (by simp), hdigit, Option.bind_eq_bind,
              Option.bind_some, hset, hrest, List.filterMap_cons, hdigit, List.length_cons]
            simp [Nat.add_assoc, Nat.add_comm 1]

@[simp] theorem ofNat_zero (base : Nat) : Numeral.ofNat digit base 0 = ['0'.toUInt8] := by
  rw [Numeral.ofNat, Numeral.digits, if_pos rfl]
  decide

theorem ofNat_of_ne_zero {x : Nat} (hx : x ≠ 0) (base : Nat) :
    Numeral.ofNat digit base x = ((Nat.digits base x).filterMap (digit[·]?)).reverse := by
  rw [Numeral.ofNat, Numeral.digits, if_neg hx, List.filterMap_reverse]

/-- The numeral of `x` stands in the buffer, and the rest of memory is as it was. -/
theorem formatNumber_eq {base : Nat} (hbase : 1 < base) (hlen : base ≤ digit.length)
    {m : List UInt8} {buffer x : Nat}
    (hroom : buffer + (Numeral.ofNat digit base x).length ≤ m.length) :
    formatNumber m buffer base x =
      some (m.take buffer ++ (Numeral.ofNat digit base x ++
          m.drop (buffer + (Numeral.ofNat digit base x).length)),
        buffer + (Numeral.ofNat digit base x).length) := by
  generalize hn : (Numeral.ofNat digit base x).length = n at hroom ⊢
  have hpre : (m.take buffer).length = buffer := List.length_take_of_le (by omega)
  have hmid : ((m.drop buffer).take n).length = n := List.length_take_of_le (by simp; omega)
  have hm : m = m.take buffer ++ ((m.drop buffer).take n ++ m.drop (buffer + n)) := by
    rw [← List.drop_drop, List.take_append_drop, List.take_append_drop]
  generalize hpre' : m.take buffer = pre at hpre hm
  generalize (m.drop buffer).take n = mid at hmid hm
  generalize m.drop (buffer + n) = post at hm
  subst hm
  subst hpre
  rw [formatNumber]
  by_cases hx : x = 0
  · subst hx
    rw [ofNat_zero] at hn ⊢
    subst hn
    obtain ⟨a, rfl⟩ := List.length_eq_one_iff.mp hmid
    rw [if_pos rfl, if_pos (by simp)]
    simp
  · rw [ofNat_of_ne_zero hx] at hn ⊢
    have hwrites := Numeral.writes_filterMap hlen fun d hd =>
      Nat.digits_lt_base (b := base) (m := x) hbase hd
    rw [List.length_reverse, hwrites.length_eq] at hn
    subst hn
    have hturn := turnLoop_spec _ pre ((Nat.digits base x).filterMap (digit[·]?)) post
      hwrites.length_eq
    rw [if_neg hx, digitLoop_spec hbase hlen x pre mid post hmid]
    simp only [Option.bind_eq_bind, Option.bind_some, hturn]
    rfl

/-! ## Characters on a stream -/

namespace OutputStream

variable {σ : Type} {out : OutputStream σ} {text : σ → List UInt8} {put : σ → UInt8 → Int × σ}

/-- `PutN` puts at least one character, and `text` is what has been put. -/
def Accepts (out : OutputStream σ) (text : σ → List UInt8) : Prop :=
  ∀ s data, data ≠ [] → ∃ (k : Nat) (s' : σ), out.putN s data = ((k : Int), s') ∧ 0 < k ∧
    k ≤ data.length ∧ text s' = text s ++ data.take k

theorem putNLoop_spec (hput : ∀ s c, 0 ≤ (put s c).1 ∧ text (put s c).2 = text s ++ [c])
    (data : List UInt8) : ∀ (s : σ) (i : Nat), ∃ s', putNLoop put s (i : Int) data =
      (((i + data.length : Nat) : Int), s') ∧ text s' = text s ++ data := by
  induction data with
  | nil => exact fun s i => ⟨s, rfl, (List.append_nil _).symm⟩
  | cons c data ih =>
      intro s i
      obtain ⟨hret, htext⟩ := hput s c
      obtain ⟨s', hloop, htext'⟩ := ih (put s c).2 (i + 1)
      refine ⟨s', ?_, ?_⟩
      · have hlen : i + (c :: data).length = i + 1 + data.length := by
          rw [List.length_cons]
          omega
        rw [putNLoop, hlen, ← hloop]
        exact if_neg (Int.not_lt.mpr hret)
      · rw [htext', htext, List.append_assoc]
        rfl

/-- It is enough that `Put` never refuses a character. -/
theorem accepts_ofPut (hput : ∀ s c, 0 ≤ (put s c).1 ∧ text (put s c).2 = text s ++ [c]) :
    (ofPut put).Accepts text := by
  intro s data hne
  obtain ⟨s', hloop, htext⟩ := putNLoop_spec hput data s 0
  rw [Nat.zero_add] at hloop
  refine ⟨data.length, s', hloop, List.length_pos_of_ne_nil hne, Nat.le_refl _, ?_⟩
  rw [htext, List.take_length]

theorem toInt_of_lt {n : Nat} (h : n < 2 ^ 31) : toInt n = n :=
  Int.bmod_eq_of_le (by omega) (by omega)

/-- A round on a text whose length is an `int`. -/
theorem write_of_lt {s s' : σ} {data : List UInt8} {written fuel : Nat} {ret : Int}
    (hlt : written < data.length) (hint : data.length < 2 ^ 31)
    (hput : out.putN s (data.drop written) = (ret, s')) :
    out.write s data written (fuel + 1) =
      if ret < 0 then some s' else out.write s' data (written + ret.toNat) fuel := by
  have hcount : toInt (data.length - written) = ((data.length - written : Nat) : Int) :=
    toInt_of_lt (by omega)
  have htake : (data.drop written).take (data.length - written) = data.drop written :=
    List.take_of_length_le (by rw [List.length_drop])
  simp only [write, if_pos hlt, hcount, Int.toNat_natCast, htake, hput]
  exact if_neg (by omega)

theorem write_spec (h : out.Accepts text) {data : List UInt8} (hint : data.length < 2 ^ 31)
    (fuel : Nat) :
    ∀ (s : σ) (written : Nat), data.length ≤ written + fuel →
      ∃ s', out.write s data written fuel = some s' ∧ text s' = text s ++ data.drop written := by
  induction fuel with
  | zero =>
      intro s written hle
      refine ⟨s, ?_, ?_⟩
      · rw [write, if_neg (by omega)]
      · rw [List.drop_eq_nil_of_le (by omega), List.append_nil]
  | succ fuel ih =>
      intro s written hle
      by_cases hlt : written < data.length
      · have hne : data.drop written ≠ [] := by
          intro hnil
          have hlen := congrArg List.length hnil
          rw [List.length_drop, List.length_nil] at hlen
          omega
        obtain ⟨k, s₁, hput, hpos, hk, htext⟩ := h s (data.drop written) hne
        obtain ⟨s', hwrite, htext'⟩ := ih s₁ (written + k) (by omega)
        refine ⟨s', ?_, ?_⟩
        · rw [write_of_lt hlt hint hput, if_neg (by omega), Int.toNat_natCast]
          exact hwrite
        · rw [htext', htext, List.append_assoc, ← List.drop_drop, List.take_append_drop]
      · rw [write, if_neg hlt, List.drop_eq_nil_of_le (by omega), List.append_nil]
        exact ⟨s, rfl, rfl⟩

theorem insertUnsigned_spec (h : out.Accepts text) (s : σ) {buffer : List UInt8} {x fuel : Nat}
    (hbuffer : (Numeral.ofNat digit 10 x).length ≤ buffer.length)
    (hint : (Numeral.ofNat digit 10 x).length < 2 ^ 31) (hfuel : buffer.length ≤ fuel) :
    ∃ s', out.insertUnsigned s buffer x fuel = some s' ∧
      text s' = text s ++ Numeral.ofNat digit 10 x := by
  have hbase : 1 < 10 := by decide
  have hlen : 10 ≤ digit.length := by decide
  have hroom : 0 + (Numeral.ofNat digit 10 x).length ≤ buffer.length := by omega
  obtain ⟨s', hwrite, htext⟩ := write_spec h hint fuel s 0 (by omega)
  refine ⟨s', ?_, htext⟩
  rw [insertUnsigned, formatNumber_eq hbase hlen hroom, Option.bind_eq_bind, Option.bind_some,
    List.take_zero, List.nil_append, Nat.zero_add]
  dsimp only
  rw [List.take_left]
  exact hwrite

theorem insertPointer_spec (h : out.Accepts text) (s : σ) {x fuel : Nat}
    (hbuffer : (Numeral.ofNat digit 16 x).length ≤ 126) (hfuel : 128 ≤ fuel) :
    ∃ s', out.insertPointer s x fuel = some s' ∧
      text s' = text s ++ (Bytes.ofString "0x" ++ Numeral.ofNat digit 16 x) := by
  have hbase : 1 < 16 := by decide
  have hlen : 16 ≤ digit.length := by decide
  have hprefix : (Bytes.ofString "0x").length = 2 := by decide
  have hroom : 2 + (Numeral.ofNat digit 16 x).length ≤
      (Bytes.ofString "0x" ++ List.replicate 126 0).length := by
    rw [List.length_append, hprefix, List.length_replicate]
    omega
  have hdata : (Bytes.ofString "0x" ++ Numeral.ofNat digit 16 x).length =
      2 + (Numeral.ofNat digit 16 x).length := by rw [List.length_append, hprefix]
  have hint : (Bytes.ofString "0x" ++ Numeral.ofNat digit 16 x).length < 2 ^ 31 := by omega
  obtain ⟨s', hwrite, htext⟩ := write_spec h hint fuel s 0 (by omega)
  refine ⟨s', ?_, htext⟩
  rw [insertPointer]
  dsimp only
  rw [formatNumber_eq hbase hlen hroom, Option.bind_eq_bind, Option.bind_some,
    List.take_left' hprefix, ← List.append_assoc, ← hdata, List.take_left]
  exact hwrite

end OutputStream

/-! ## Printing what is read back -/

/-- A number of 64 bits in a base up to 16 is written with at most 64 characters. They are
the only numeral that is read back as the number. An unsigned number is printed as its
numeral, and a pointer as its numeral behind "0x". -/
theorem formatNumber_reads_back {base x : Nat} (hlo : 2 ≤ base) (hhi : base ≤ 16)
    (hx : x < 2 ^ 64) : ∃ cs : List UInt8,
      cs.length ≤ 64 ∧ Numeral.IsNumeral digit base x cs ∧
      (∀ cs', Numeral.IsNumeral digit base x cs' → cs' = cs) ∧
      (∀ (m : List UInt8) (buffer : Nat), buffer + 64 ≤ m.length →
        formatNumber m buffer base x =
          some (m.take buffer ++ (cs ++ m.drop (buffer + cs.length)), buffer + cs.length)) ∧
      ∀ (σ : Type) (out : OutputStream σ) (text : σ → List UInt8) (s : σ), out.Accepts text →
        ∀ fuel ≥ 128,
          (base = 10 → ∀ buffer : List UInt8, buffer.length = 128 →
            ∃ s', out.insertUnsigned s buffer x fuel = some s' ∧ text s' = text s ++ cs) ∧
          (base = 16 → ∃ s', out.insertPointer s x fuel = some s' ∧
            text s' = text s ++ (Bytes.ofString "0x" ++ cs)) := by
  have hnodup : digit.Nodup := by decide
  have hlen : base ≤ digit.length := hhi
  have hbound : x < base ^ 64 := hx.trans_le (Nat.pow_le_pow_left hlo 64)
  have hshort : (Numeral.ofNat digit base x).length ≤ 64 :=
    Numeral.length_ofNat_le hlo hlen (by decide) hbound
  refine ⟨Numeral.ofNat digit base x, hshort, Numeral.isNumeral_ofNat hnodup hlo hlen x,
    fun cs' h => h.eq_ofNat hnodup hlo hlen,
    fun m buffer hroom => formatNumber_eq hlo hlen (by omega), fun σ out text s h fuel hfuel => ⟨?_, ?_⟩⟩
  · rintro rfl buffer hbuffer
    exact OutputStream.insertUnsigned_spec h s (by omega) (by omega) (by omega)
  · rintro rfl
    exact OutputStream.insertPointer_spec h s (by omega) hfuel

/-- What is printed for 255, on a stream that keeps its characters. -/
theorem formatNumber_reads_back_255 : ∃ cs : List UInt8,
    Numeral.IsNumeral digit 16 255 cs ∧
      (OutputStream.ofPut fun (s : List UInt8) c => (0, s ++ [c])).insertPointer [] 255 128 =
        some (Bytes.ofString "0x" ++ cs) := by
  have haccepts : (OutputStream.ofPut fun (s : List UInt8) c => (0, s ++ [c])).Accepts id :=
    OutputStream.accepts_ofPut fun s c => ⟨Int.le_refl 0, rfl⟩
  have hlo : 2 ≤ 16 := by decide
  have hhi : 16 ≤ 16 := Nat.le_refl _
  have hx : 255 < 2 ^ 64 := by decide
  obtain ⟨cs, -, hcs, -, -, hprint⟩ :=
    formatNumber_reads_back hlo hhi hx
  obtain ⟨s', hinsert, htext⟩ := (hprint _ _ id [] haccepts 128 (Nat.le_refl _)).2 rfl
  refine ⟨cs, hcs, hinsert.trans (congrArg some htext)⟩

end Aarch64.Cxx
