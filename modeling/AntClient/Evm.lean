/-
  EVM calldata, 256-bit arithmetic and the single-node payment split (`evm.rs`).

  * `u256_exact`: the arithmetic is exact modulo `2 ^ 256` and nothing overflows on the
    way, the comparison is the numeric order, and the total is the sum modulo `2 ^ 256`.
  * `calldata_decodes`: standard ABI decoders read back the payments and the approval.
  * `paymentSplit_forall₂`, `sumAmounts_split`: the split lists the quotes in order and
    pays one of them, so the approved total is the exact sum of the payments.
-/
import AntClient.Payment
import AntClient.Lib.Postcard
import Mathlib.Algebra.BigOperators.Fin

namespace AntClient

open Bytes

/-- `(rewardsAddress, amount, quoteHash)`: the struct the contract expects. -/
abbrev DataPayment := Arr 20 × Arr 32 × Arr 32

/-- The number of quotes a single-node payment requires. -/
def closeGroupSize : ℕ := 7

/-! ## Calldata -/

/-- ERC-20 `approve(address,uint256)` selector. -/
def erc20ApproveSelector : Arr 4 := ⟨[0x09, 0x5e, 0xa7, 0xb3], rfl⟩

/-- Left-pad a 20-byte address into a 32-byte ABI word. -/
def wordFromAddress (addr : Arr 20) : Arr 32 := ⟨List.replicate 12 0 ++ addr.1, by simp⟩

/-- A 64-bit integer as a 32-byte ABI word. -/
def wordFromU64 (n : ℕ) : Arr 32 := ⟨List.replicate 24 0 ++ toBe 8 n, by simp⟩

/-- ABI calldata for ERC-20 `approve(spender, amount)`. -/
def approveCalldata (spender : Arr 20) (amount : Arr 32) : Bytes :=
  erc20ApproveSelector.1 ++ ((wordFromAddress spender).1 ++ amount.1)

variable (C : Crates)

/-- The `payForQuotes((address,uint256,bytes32)[])` selector. -/
def payForQuotesSelector : Arr 4 :=
  ⟨(C.keccak256 (Postcard.utf8 "payForQuotes((address,uint256,bytes32)[])")).1.take 4, by simp⟩

def putPayment (p : DataPayment) : Bytes := (wordFromAddress p.1).1 ++ (p.2.1.1 ++ p.2.2.1)

/-- ABI calldata for `payForQuotes(DataPayment[])`: selector, offset of the array,
    its length, and three words for each element. -/
def payForQuotesCalldata (payments : List DataPayment) : Bytes :=
  (payForQuotesSelector C).1 ++ ((List.replicate 31 0 ++ [0x20]) ++
    ((wordFromU64 payments.length).1 ++ payments.flatMap putPayment))

/-! ## 256-bit arithmetic -/

/-- The loop of `u256_add`, which starts at the last byte: the sum and the
    carry. -/
def addLoop : List (UInt8 × UInt8) → Bytes × UInt16
  | [] => ([], 0)
  | (a, b) :: rest =>
    let out := (addLoop rest).1
    let carry := (addLoop rest).2
    let sum := a.toUInt16 + b.toUInt16 + carry
    ((sum &&& 0xff).toUInt8 :: out, sum >>> 8)

/-- The loop of `u256_mul_u64`; a `u128` is a `BitVec 128`. -/
def mulLoop (m : UInt64) : Bytes → Bytes × BitVec 128
  | [] => ([], 0)
  | a :: rest =>
    let out := (mulLoop m rest).1
    let carry := (mulLoop m rest).2
    let prod := BitVec.ofNat 128 a.toNat * BitVec.ofNat 128 m.toNat + carry
    (UInt8.ofNat (prod &&& 0xff).toNat :: out, prod >>> 8)

theorem length_addLoop (l : List (UInt8 × UInt8)) : (addLoop l).1.length = l.length := by
  induction l with
  | nil => rfl
  | cons x l ih => simp [addLoop, ih]

theorem length_mulLoop (m : UInt64) (l : Bytes) : (mulLoop m l).1.length = l.length := by
  induction l with
  | nil => rfl
  | cons x l ih => simp [mulLoop, ih]

/-- Big-endian 256-bit addition. -/
def u256Add (a b : Arr 32) : Arr 32 :=
  ⟨(addLoop (a.1.zip b.1)).1, by simp [length_addLoop]⟩

/-- Big-endian 256-bit multiply by a `u64`. -/
def u256MulU64 (a : Arr 32) (m : UInt64) : Arr 32 :=
  ⟨(mulLoop m a.1).1, by simp [length_mulLoop]⟩

/-- The lexicographic order of byte strings. -/
def cmpBytes : Bytes → Bytes → Ordering
  | [], [] => .eq
  | [], _ :: _ => .lt
  | _ :: _, [] => .gt
  | x :: xs, y :: ys => (compare x y).then (cmpBytes xs ys)

/-- Compare two big-endian 256-bit integers. -/
def u256Cmp (a b : Arr 32) : Ordering := cmpBytes a.1 b.1

/-- Sum a set of payments into one approve amount. -/
def totalAmount (payments : List DataPayment) : Arr 32 :=
  payments.foldl (fun acc p => u256Add acc p.2.1) (Arr.replicate 32 0)

/-! ## The split -/

/-- The indices of the quotes, ascending by price; equal prices keep their
    order. -/
def ranked (quotes : List Quote) : List (Fin quotes.length) :=
  (List.finRange quotes.length).mergeSort fun i j =>
    u256Cmp (quotes.get i).price (quotes.get j).price != .gt

theorem length_ranked (quotes : List Quote) : (ranked quotes).length = quotes.length := by
  rw [ranked, List.length_mergeSort, List.length_finRange]

/-- The index of the quote that is paid. -/
def medianIdx (quotes : List Quote) (h : quotes.length = closeGroupSize) : Fin quotes.length :=
  (ranked quotes).get ⟨3, by rw [length_ranked, h]; decide⟩

/-- The single-node payment split for exactly seven quotes: the median is paid
    three times its price, everyone else nothing, in the order of the quotes. -/
def paymentSplit (quotes : List Quote) : Except String (List DataPayment) :=
  if h : quotes.length = closeGroupSize then
    .ok ((List.finRange quotes.length).map fun i =>
      ((quotes.get i).rewardsAddress,
        if i = medianIdx quotes h then u256MulU64 (quotes.get (medianIdx quotes h)).price 3
        else Arr.replicate 32 0,
        quoteHash C (quotes.get i)))
  else .error s!"payment split needs exactly {closeGroupSize} quotes, got {quotes.length}"

/-! ## Sums -/

/-- A digit is kept and the rest carried. -/
theorem carry_digit (n p : ℕ) : n % 256 * p + p * 256 * (n / 256) = p * n := by
  conv => rhs; rw [← Nat.mod_add_div n 256]
  ring

/-- What is left once the last carry is dropped. -/
theorem beNat_eq_mod {a : Arr 32} {c n : ℕ} (h : beNat a.1 + 256 ^ 32 * c = n) :
    beNat a.1 = n % 256 ^ 32 := by
  have hlt : beNat a.1 < 256 ^ 32 := by simpa using beNat_lt a
  rw [← h, Nat.add_mul_mod_self_left]
  exact (Nat.mod_eq_of_lt hlt).symm

/-- The sum of two bytes and a carry bit fits in a `u16`. -/
theorem toNat_sum (a b : UInt8) {carry : UInt16} (hc : carry.toNat ≤ 1) :
    (a.toUInt16 + b.toUInt16).toNat = a.toNat + b.toNat ∧
      (a.toUInt16 + b.toUInt16 + carry).toNat = a.toNat + b.toNat + carry.toNat := by
  have ha := a.toNat_lt
  have hb := b.toNat_lt
  simp only [UInt16.toNat_add, UInt8.toNat_toUInt16]
  omega

theorem addLoop_spec (l : List (UInt8 × UInt8)) :
    (addLoop l).2.toNat ≤ 1 ∧
      beNat (addLoop l).1 + 256 ^ l.length * (addLoop l).2.toNat =
        beNat (l.map Prod.fst) + beNat (l.map Prod.snd) := by
  induction l with
  | nil => exact ⟨by decide, rfl⟩
  | cons x l ih =>
    obtain ⟨a, b⟩ := x
    obtain ⟨h1, h2⟩ := ih
    have ha := a.toNat_lt
    have hb := b.toNat_lt
    obtain ⟨-, hsum⟩ := toNat_sum a b h1
    generalize hs : a.toUInt16 + b.toUInt16 + (addLoop l).2 = sum at hsum
    have hlow : ((sum &&& 0xff).toUInt8).toNat = sum.toNat % 256 := by
      have h : sum.toNat % 256 &&& 255 = sum.toNat % 256 % 256 :=
        Nat.and_two_pow_sub_one_eq_mod _ 8
      simp [h]
    have hhigh : (sum >>> 8).toNat = sum.toNat / 256 := by
      simp [Nat.shiftRight_eq_div_pow]
    have hl : (addLoop l).1.length = (l.map Prod.fst).length := by
      rw [length_addLoop, List.length_map]
    simp only [addLoop, hs, hlow, hhigh, beNat_cons, List.map_cons, List.length_cons,
      List.length_map, length_addLoop, pow_succ]
    refine ⟨by omega, ?_⟩
    have hd := carry_digit sum.toNat (256 ^ l.length)
    have hm : 256 ^ l.length * sum.toNat = a.toNat * 256 ^ l.length + b.toNat * 256 ^ l.length +
        256 ^ l.length * (addLoop l).2.toNat := by
      rw [hsum]
      ring
    omega

/-- Addition is exact modulo `2 ^ 256`. -/
theorem u256Add_spec (a b : Arr 32) :
    beNat (u256Add a b).1 = (beNat a.1 + beNat b.1) % 256 ^ 32 := by
  obtain ⟨-, h⟩ := addLoop_spec (a.1.zip b.1)
  have hz : (a.1.zip b.1).length = 32 := by simp
  rw [List.map_fst_zip (by simp), List.map_snd_zip (by simp), hz] at h
  exact beNat_eq_mod h

/-- The product of a byte and a `u64`, with a carry below `2 ^ 64`, fits in a `u128`. -/
theorem toNat_prod (a : UInt8) (m : UInt64) {carry : BitVec 128} (hc : carry.toNat < 2 ^ 64) :
    (BitVec.ofNat 128 a.toNat * BitVec.ofNat 128 m.toNat).toNat = a.toNat * m.toNat ∧
      (BitVec.ofNat 128 a.toNat * BitVec.ofNat 128 m.toNat + carry).toNat =
        a.toNat * m.toNat + carry.toNat := by
  have ha := a.toNat_lt
  have hm := m.toNat_lt
  have hle : a.toNat * m.toNat ≤ 255 * (2 ^ 64 - 1) := Nat.mul_le_mul (by omega) (by omega)
  have hprod : (BitVec.ofNat 128 a.toNat * BitVec.ofNat 128 m.toNat).toNat =
      a.toNat * m.toNat := by
    rw [BitVec.toNat_mul, BitVec.toNat_ofNat, BitVec.toNat_ofNat,
      Nat.mod_eq_of_lt (by omega : a.toNat < 2 ^ 128),
      Nat.mod_eq_of_lt (by omega : m.toNat < 2 ^ 128), Nat.mod_eq_of_lt (by omega)]
  refine ⟨hprod, ?_⟩
  rw [BitVec.toNat_add, hprod, Nat.mod_eq_of_lt (by omega)]

/-- The carry stays below `2 ^ 64`. -/
theorem mulLoop_spec (m : UInt64) (l : Bytes) :
    (mulLoop m l).2.toNat < 2 ^ 64 ∧
      beNat (mulLoop m l).1 + 256 ^ l.length * (mulLoop m l).2.toNat = beNat l * m.toNat := by
  induction l with
  | nil => exact ⟨by simp [mulLoop], by simp [mulLoop]⟩
  | cons a l ih =>
    obtain ⟨h1, h2⟩ := ih
    have ha := a.toNat_lt
    have hm := m.toNat_lt
    have hle : a.toNat * m.toNat ≤ 255 * (2 ^ 64 - 1) := Nat.mul_le_mul (by omega) (by omega)
    obtain ⟨-, hprod⟩ := toNat_prod a m h1
    generalize hs : BitVec.ofNat 128 a.toNat * BitVec.ofNat 128 m.toNat + (mulLoop m l).2 = prod
      at hprod
    have hlow : (UInt8.ofNat (prod &&& 0xff).toNat).toNat = prod.toNat % 256 := by
      have h : prod.toNat &&& 255 = prod.toNat % 256 := Nat.and_two_pow_sub_one_eq_mod _ 8
      simp [h]
    have hhigh : (prod >>> 8).toNat = prod.toNat / 256 := by
      simp [Nat.shiftRight_eq_div_pow]
    simp only [mulLoop, hs, hlow, hhigh, beNat_cons, List.length_cons, length_mulLoop, pow_succ]
    refine ⟨by omega, ?_⟩
    have hd := carry_digit prod.toNat (256 ^ l.length)
    have hp : 256 ^ l.length * prod.toNat = a.toNat * 256 ^ l.length * m.toNat +
        256 ^ l.length * (mulLoop m l).2.toNat := by
      rw [hprod]
      ring
    rw [Nat.add_mul, ← h2]
    omega

/-- Multiplication is exact modulo `2 ^ 256`. -/
theorem u256MulU64_spec (a : Arr 32) (m : UInt64) :
    beNat (u256MulU64 a m).1 = beNat a.1 * m.toNat % 256 ^ 32 := by
  obtain ⟨-, h⟩ := mulLoop_spec m a.1
  rw [a.2] at h
  exact beNat_eq_mod h

/-- The first digit decides, then the rest. -/
theorem compare_digits {x y a b p : ℕ} (ha : a < p) (hb : b < p) :
    (compare x y).then (compare a b) = compare (x * p + a) (y * p + b) := by
  rcases lt_trichotomy x y with hlt | rfl | hgt
  · have hp : (x + 1) * p ≤ y * p := Nat.mul_le_mul_right p hlt
    have h : x * p + a < y * p + b := by
      rw [Nat.add_mul] at hp
      omega
    rw [Nat.compare_eq_lt.2 hlt, Nat.compare_eq_lt.2 h]
    rfl
  · rw [Nat.compare_eq_eq.2 rfl]
    simp only [Ordering.eq_then, compare, compareOfLessAndEq, Nat.add_lt_add_iff_left,
      Nat.add_right_inj]
  · have hp : (y + 1) * p ≤ x * p := Nat.mul_le_mul_right p hgt
    have h : y * p + b < x * p + a := by
      rw [Nat.add_mul] at hp
      omega
    rw [Nat.compare_eq_gt.2 hgt, Nat.compare_eq_gt.2 h]
    rfl

/-- Big-endian byte order is the numeric order. -/
theorem cmpBytes_eq_compare {a b : Bytes} (h : a.length = b.length) :
    cmpBytes a b = compare (beNat a) (beNat b) := by
  induction a generalizing b with
  | nil =>
    cases b with
    | nil => rfl
    | cons y b => cases h
  | cons x a ih =>
    cases b with
    | nil => cases h
    | cons y b =>
      simp only [List.length_cons, Nat.add_right_cancel_iff] at h
      have hx : compare x y = compare x.toNat y.toNat := by
        simp only [compare, compareOfLessAndEq, UInt8.lt_iff_toNat_lt, ← UInt8.toNat_inj]
      rw [cmpBytes, ih h, hx, beNat_cons, beNat_cons, h]
      exact compare_digits (h ▸ beNat_lt a) (beNat_lt b)

/-- `u256Cmp` compares the integers. -/
theorem u256Cmp_le {a b : Arr 32} : (u256Cmp a b != .gt) = true ↔ beNat a.1 ≤ beNat b.1 := by
  rw [u256Cmp, cmpBytes_eq_compare (a.2.trans b.2.symm), bne_iff_ne, ne_eq, Nat.compare_eq_gt,
    not_lt]

/-- The sum of the amounts of a list of payments, as an integer. -/
def sumAmounts (payments : List DataPayment) : ℕ := (payments.map fun p => beNat p.2.1.1).sum

theorem totalAmount_spec (payments : List DataPayment) :
    beNat (totalAmount payments).1 = sumAmounts payments % 256 ^ 32 := by
  have fold : ∀ (ps : List DataPayment) (acc : Arr 32),
      beNat (ps.foldl (fun acc p => u256Add acc p.2.1) acc).1 =
        (beNat acc.1 + sumAmounts ps) % 256 ^ 32 := by
    intro ps
    induction ps with
    | nil =>
      intro acc
      exact beNat_eq_mod (c := 0) (by simp [sumAmounts])
    | cons p ps ih =>
      intro acc
      rw [List.foldl_cons, ih, u256Add_spec, Nat.mod_add_mod]
      simp only [sumAmounts, List.map_cons, List.sum_cons, Nat.add_assoc]
  rw [totalAmount, fold]
  show (beNat (List.replicate 32 0) + _) % _ = _
  rw [beNat_replicate_zero, Nat.zero_add]

/-- **The kernels are exact** modulo `2 ^ 256`: the steps of both loops stay within a `u16`
    and a `u128`, whatever the bytes that are already done. -/
theorem u256_exact :
    (∀ a b : Arr 32, beNat (u256Add a b).1 = (beNat a.1 + beNat b.1) % 2 ^ 256) ∧
    (∀ (a : Arr 32) (m : UInt64),
      beNat (u256MulU64 a m).1 = beNat a.1 * m.toNat % 2 ^ 256) ∧
    (∀ a b : Arr 32, u256Cmp a b = compare (beNat a.1) (beNat b.1)) ∧
    (∀ (a b : UInt8) (done : List (UInt8 × UInt8)),
      (a.toUInt16 + b.toUInt16).toNat = a.toNat + b.toNat ∧
      (a.toUInt16 + b.toUInt16 + (addLoop done).2).toNat =
        a.toNat + b.toNat + (addLoop done).2.toNat) ∧
    (∀ (a : UInt8) (m : UInt64) (done : Bytes),
      (BitVec.ofNat 128 a.toNat * BitVec.ofNat 128 m.toNat).toNat = a.toNat * m.toNat ∧
      (BitVec.ofNat 128 a.toNat * BitVec.ofNat 128 m.toNat + (mulLoop m done).2).toNat =
        a.toNat * m.toNat + (mulLoop m done).2.toNat) ∧
    ∀ payments : List DataPayment,
      beNat (totalAmount payments).1 = (payments.map fun p => beNat p.2.1.1).sum % 2 ^ 256 := by
  have hpow : (2 : ℕ) ^ 256 = 256 ^ 32 := by norm_num
  rw [hpow]
  refine ⟨u256Add_spec, u256MulU64_spec, ?_, ?_, ?_, totalAmount_spec⟩
  · intro a b
    exact cmpBytes_eq_compare (a.2.trans b.2.symm)
  · intro a b done
    exact toNat_sum a b (addLoop_spec done).1
  · intro a m done
    exact toNat_prod a m (mulLoop_spec m done).1

/-! ## What the split says -/

theorem paymentSplit_length {quotes : List Quote} {payments : List DataPayment}
    (h : paymentSplit C quotes = .ok payments) : quotes.length = closeGroupSize := by
  unfold paymentSplit at h
  split at h
  · assumption
  · cases h

/-- The split lists the quotes in order. -/
theorem paymentSplit_forall₂ {quotes : List Quote} {payments : List DataPayment}
    (h : paymentSplit C quotes = .ok payments) :
    List.Forall₂ (fun q p => p.1 = q.rewardsAddress ∧ p.2.2 = quoteHash C q) quotes payments := by
  unfold paymentSplit at h
  split at h
  · cases h
    exact List.forall₂_iff_get.2 ⟨by simp, fun i h₁ h₂ => by simp⟩
  · cases h

/-- Only the payment for the median has an amount. -/
theorem sumAmounts_split {quotes : List Quote} {payments : List DataPayment}
    (h : paymentSplit C quotes = .ok payments) (hq : quotes.length = closeGroupSize) :
    sumAmounts payments = beNat (u256MulU64 (quotes.get (medianIdx quotes hq)).price 3).1 := by
  unfold paymentSplit at h
  rw [dif_pos hq] at h
  cases h
  have hz : beNat (Arr.replicate 32 0).1 = 0 := beNat_replicate_zero 32
  rw [sumAmounts, List.map_map, ← Fin.sum_univ_def]
  simp only [Function.comp_apply, apply_ite (fun a : Arr 32 => beNat a.1), hz,
    Finset.sum_ite_eq', Finset.mem_univ, if_true]

/-- The approved total does not wrap: it is the exact sum of the amounts. -/
theorem totalAmount_split {quotes : List Quote} {payments : List DataPayment}
    (h : paymentSplit C quotes = .ok payments) :
    beNat (totalAmount payments).1 = sumAmounts payments := by
  have hq := paymentSplit_length C h
  have hlt := beNat_lt (u256MulU64 (quotes.get (medianIdx quotes hq)).price 3).1
  rw [Arr.length_val, ← sumAmounts_split C h hq] at hlt
  rw [totalAmount_spec, Nat.mod_eq_of_lt hlt]

/-! ## Decoding calldata -/

/-- An address word; its padding must be zero. -/
def getAddress : Parser (Arr 20) := do
  if (← Parser.take 12) = List.replicate 12 0 then Parser.arr 20 else .fail

def getPayment : Parser DataPayment := do
  return (← getAddress, ← Parser.arr 32, ← Parser.arr 32)

def getApprove : Parser (Arr 20 × Arr 32) := do
  return (← getAddress, ← Parser.arr 32)

/-- A standard ABI decoder for `approve(address,uint256)`; the rest of the calldata
    is returned as well. -/
def decodeApprove (calldata : Bytes) : Option ((Arr 20 × Arr 32) × Bytes) := do
  let (selector, args) ← Parser.arr 4 calldata
  guard (selector = erc20ApproveSelector)
  getApprove args

/-- A standard ABI decoder for `payForQuotes((address,uint256,bytes32)[])`: follow
    the offset word, read the length word and then three words per element.  The
    rest of the calldata is returned as well. -/
def decodePayForQuotes (calldata : Bytes) : Option (List DataPayment × Bytes) := do
  let (selector, args) ← Parser.arr 4 calldata
  guard (selector = payForQuotesSelector C)
  let (offset, _) ← Parser.take 32 args
  let (length, elements) ← Parser.take 32 (args.drop (beNat offset))
  Parser.times getPayment (beNat length) elements

theorem getAddress_reads (addr : Arr 20) : getAddress.Reads (wordFromAddress addr).1 addr :=
  Parser.Reads.bind (.take List.length_replicate) (by rw [if_pos rfl]; exact .arr addr)

theorem getPayment_reads (p : DataPayment) : getPayment.Reads (putPayment p) p :=
  (getAddress_reads p.1).bind ((Parser.Reads.arr p.2.1).bind (Parser.Reads.arr p.2.2).last)

theorem getApprove_reads (spender : Arr 20) (amount : Arr 32) :
    getApprove.Reads ((wordFromAddress spender).1 ++ amount.1) (spender, amount) :=
  (getAddress_reads spender).bind (Parser.Reads.arr amount).last

/-- The decoder reads back the spender and the amount. -/
theorem decodeApprove_calldata (spender : Arr 20) (amount : Arr 32) :
    decodeApprove (approveCalldata spender amount) = some ((spender, amount), []) := by
  have h := getApprove_reads spender amount []
  rw [List.append_nil] at h
  simp only [decodeApprove, approveCalldata, Parser.Reads.arr _ _, Option.bind_eq_bind,
    Option.bind_some, guard_true, Option.pure_def, h]

/-- **The decoder reads back the payments**, and consumes every byte. -/
theorem decodePayForQuotes_calldata {payments : List DataPayment}
    (h : payments.length < 2 ^ 64) :
    decodePayForQuotes C (payForQuotesCalldata C payments) = some (payments, []) := by
  have hl : beNat (wordFromU64 payments.length).1 = payments.length := by
    rw [wordFromU64, beNat_append, beNat_replicate_zero, Nat.zero_mul, Nat.zero_add,
      beNat_toBe_of_lt (by omega)]
  have he :
      (Parser.times getPayment payments.length).Reads (payments.flatMap putPayment) payments :=
    .times rfl fun p _ => getPayment_reads p
  have hw := Parser.Reads.take (wordFromU64 payments.length).2 (payments.flatMap putPayment)
  have ho : beNat (List.replicate 31 0 ++ [0x20]) = 32 := by
    rw [beNat_concat, beNat_replicate_zero]
    rfl
  have h32 : (List.replicate 31 (0 : UInt8) ++ [0x20]).length = 32 := by simp
  simp only [decodePayForQuotes, payForQuotesCalldata, Parser.Reads.arr _ _, Option.bind_eq_bind,
    Option.bind_some, guard_true, Option.pure_def, Parser.Reads.take h32 _, ho,
    List.drop_left' h32, hw, hl]
  simpa using he []

/-- **Calldata decodes to what was meant**, so both encoders are injective. -/
theorem calldata_decodes :
    (∀ payments : List DataPayment, payments.length < 2 ^ 64 →
      decodePayForQuotes C (payForQuotesCalldata C payments) = some (payments, [])) ∧
    (∀ spender amount,
      decodeApprove (approveCalldata spender amount) = some ((spender, amount), [])) ∧
    (∀ payments payments' : List DataPayment, payments.length < 2 ^ 64 →
      payments'.length < 2 ^ 64 →
      payForQuotesCalldata C payments = payForQuotesCalldata C payments' → payments = payments') ∧
    ∀ spender amount spender' amount',
      approveCalldata spender amount = approveCalldata spender' amount' →
      spender = spender' ∧ amount = amount' := by
  refine ⟨?_, decodeApprove_calldata, ?_, ?_⟩
  · intro payments h
    exact decodePayForQuotes_calldata C h
  · intro payments payments' h h' he
    have hd := decodePayForQuotes_calldata C h
    rw [he, decodePayForQuotes_calldata C h'] at hd
    simpa using hd.symm
  · intro spender amount spender' amount' he
    have hd := decodeApprove_calldata spender amount
    rw [he, decodeApprove_calldata] at hd
    simpa [and_comm, eq_comm] using hd

theorem calldata_decodes_two :
    let payments : List DataPayment :=
      [(.replicate 20 0x11, .replicate 32 5, .replicate 32 0x22),
        (.replicate 20 0x33, .replicate 32 0, .replicate 32 0x44)]
    decodePayForQuotes .transparent (payForQuotesCalldata .transparent payments) =
      some (payments, []) :=
  (calldata_decodes .transparent).1 _ (by simp)

end AntClient
