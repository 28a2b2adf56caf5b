/-
  The median split.

  The quote that is paid has rank three in the order of the prices, equal prices in
  the order of the quotes.

  * `paymentSplit_median`: what the split returns, and that the order of the quotes does
    not matter.
  * `paymentSplit_robust`: four honest prices bound what is approved from both sides.
  * `paymentSplit_exact_iff`: when the amount is three times the median price.
-/
import AntClient.StoreRun
import AntClient.Lib.Rank
import Mathlib.Order.Lattice.Nat

namespace AntClient

open Bytes Async Prog Rank

/-- The prices of the quotes, as integers. -/
def prices (quotes : List Quote) (i : Fin quotes.length) : ℕ := beNat (quotes.get i).price.1

/-! ## The median -/

section
variable {quotes : List Quote} (hq : quotes.length = closeGroupSize)
include hq

theorem rank_medianIdx : rank (prices quotes) (medianIdx quotes hq) = 3 :=
  @rank_mergeSort _ _ _ (prices quotes) _ (fun _ _ => u256Cmp_le) ⟨3, _⟩

theorem rank_eq_three_iff {i : Fin quotes.length} :
    rank (prices quotes) i = 3 ↔ i = medianIdx quotes hq := by
  constructor
  · intro h
    exact rank_injective _ (h.trans (rank_medianIdx hq).symm)
  · rintro rfl
    exact rank_medianIdx hq

end

variable (C : Crates)

/-- The payments for seven quotes, with the median at `m`. -/
structure PaysMedian (quotes : List Quote) (payments : List DataPayment)
    (m : Fin quotes.length) : Prop where
  rank_iff : ∀ i, rank (prices quotes) i = 3 ↔ i = m
  length : payments.length = closeGroupSize
  entry : ∀ i : Fin quotes.length, payments[(i : ℕ)]? = some ((quotes.get i).rewardsAddress,
    if i = m then u256MulU64 (quotes.get m).price 3 else Arr.replicate 32 0,
    quoteHash C (quotes.get i))
  below : (Finset.univ.filter fun i => prices quotes i < prices quotes m).card ≤ 3
  above : (Finset.univ.filter fun i => prices quotes m < prices quotes i).card ≤ 3
  total : totalAmount payments = u256MulU64 (quotes.get m).price 3

theorem paymentSplit_paysMedian {quotes : List Quote} (hq : quotes.length = closeGroupSize) :
    ∃ payments, paymentSplit C quotes = .ok payments ∧
      PaysMedian C quotes payments (medianIdx quotes hq) := by
  have hs : ∃ payments, paymentSplit C quotes = .ok payments := by
    unfold paymentSplit
    rw [dif_pos hq]
    exact ⟨_, rfl⟩
  obtain ⟨payments, hs⟩ := hs
  refine ⟨payments, hs, fun i => rank_eq_three_iff hq, ?_, ?_, ?_, ?_, ?_⟩
  · rw [← (paymentSplit_forall₂ C hs).length_eq, hq]
  · intro i
    unfold paymentSplit at hs
    rw [dif_pos hq] at hs
    cases hs
    simp
  · have h := card_lt_le_rank (prices quotes) (medianIdx quotes hq)
    rwa [rank_medianIdx hq] at h
  · have h := card_gt_add_rank (prices quotes) (medianIdx quotes hq)
    have hl : quotes.length = 7 := hq
    rw [rank_medianIdx hq] at h
    omega
  · apply beNat_inj
    rw [totalAmount_split C hs, sumAmounts_split C hs hq]

theorem PaysMedian.unique {C} {quotes : List Quote} {payments : List DataPayment}
    {m m' : Fin quotes.length} (h : PaysMedian C quotes payments m)
    (h' : rank (prices quotes) m' = 3) : m' = m := (h.rank_iff m').1 h'

/-- **The median split**, in every order of the quotes. -/
theorem paymentSplit_median {quotes : List Quote} (hq : quotes.length = closeGroupSize) :
    ∃ payments m, paymentSplit C quotes = .ok payments ∧ PaysMedian C quotes payments m ∧
      ∀ quotes', quotes'.Perm quotes → ∃ payments' m',
        paymentSplit C quotes' = .ok payments' ∧ PaysMedian C quotes' payments' m' ∧
        (payments'[(m' : ℕ)]?.map fun p => p.2.1) = payments[(m : ℕ)]?.map (fun p => p.2.1) ∧
        ((∀ i, i ≠ m → prices quotes i ≠ prices quotes m) →
          payments'[(m' : ℕ)]? = payments[(m : ℕ)]?) := by
  obtain ⟨payments, hs, h⟩ := paymentSplit_paysMedian C hq
  refine ⟨payments, medianIdx quotes hq, hs, h, fun quotes' hp => ?_⟩
  have hq' : quotes'.length = closeGroupSize := hp.length_eq.trans hq
  obtain ⟨payments', hs', h'⟩ := paymentSplit_paysMedian C hq'
  have hprice : (quotes'.get (medianIdx quotes' hq')).price =
      (quotes.get (medianIdx quotes hq)).price := by
    apply beNat_inj
    exact key_eq_of_rank (fun q : Quote => beNat q.price.1) hp
      ((rank_medianIdx hq').trans (rank_medianIdx hq).symm)
  refine ⟨payments', medianIdx quotes' hq', hs', h', ?_, fun huniq => ?_⟩
  · rw [h'.entry, h.entry, if_pos rfl, if_pos rfl, hprice]
    rfl
  · -- the quote that is paid is among the others, and only one has this price
    obtain ⟨i, hi⟩ := List.get_of_mem (hp.mem_iff.1 (List.get_mem quotes' (medianIdx quotes' hq')))
    have him : i = medianIdx quotes hq := by
      by_contra hne
      refine huniq i hne ?_
      rw [prices, prices, hi, hprice]
    rw [h'.entry, h.entry, if_pos rfl, if_pos rfl, ← hi, him]

/-- Seven quotes that are not in the order of their prices. -/
def unsortedQuotes : List Quote :=
  [70, 10, 50, 30, 20, 60, 40].map fun n => { pinnedQuote with price := wordFromU64 n }

theorem paymentSplit_median_unsorted : ∃ payments payments' m m',
    paymentSplit .transparent unsortedQuotes = .ok payments ∧
    paymentSplit .transparent unsortedQuotes.reverse = .ok payments' ∧
    PaysMedian .transparent unsortedQuotes payments m ∧
    PaysMedian .transparent unsortedQuotes.reverse payments' m' ∧
    payments'[(m' : ℕ)]? = payments[(m : ℕ)]? := by
  obtain ⟨payments, m, hs, hm, h⟩ :=
    paymentSplit_median .transparent (by rfl : unsortedQuotes.length = _)
  obtain ⟨payments', m', hs', hm', -, huniq⟩ := h unsortedQuotes.reverse (List.reverse_perm _)
  have hinj : ∀ i j, prices unsortedQuotes i = prices unsortedQuotes j → i = j := by decide
  exact ⟨payments, payments', m, m', hs, hs', hm, hm', huniq fun i hi he => hi (hinj i m he)⟩

/-! ## Honest prices -/

/-- The amount of the median, as an integer. -/
theorem beNat_price_mul_three {quotes : List Quote} (m : Fin quotes.length) :
    beNat (u256MulU64 (quotes.get m).price 3).1 = 3 * prices quotes m % 2 ^ 256 := by
  rw [u256MulU64_spec, Nat.mul_comm]
  rfl

theorem PaysMedian.amount {C} {quotes : List Quote} {payments : List DataPayment}
    {m : Fin quotes.length} (h : PaysMedian C quotes payments m) :
    beNat (totalAmount payments).1 = 3 * prices quotes m % 2 ^ 256 := by
  rw [h.total, beNat_price_mul_three]

/-- Once the quotes are split, the first thing a run does is to approve the total. -/
theorem payAndPut_approves {σ : Type} {I : σ → σ → Prop} {address : XorName} {content : Bytes}
    {token vault : Arr 20} {quoted : List QuotedPeer} {payments : List DataPayment} {s s' : σ}
    {ev : Ev Net} {tr : List (Ev Net)} {o : Option (Except String Unit)}
    (hs : paymentSplit C (quoted.map QuotedPeer.quote) = .ok payments)
    (h : Run I (payAndPut C address content token vault quoted) s (ev :: tr) o s') :
    ∃ r, ev = approveEvent token vault payments r := by
  unfold payAndPut at h
  rw [hs, ret_ok_bindE, callPay, call_bindE] at h
  cases h with
  | call r => exact ⟨r, rfl⟩

theorem nonempty_of_four {n : ℕ} {H : Finset (Fin n)} (hH : 4 ≤ H.card) : H.Nonempty :=
  Finset.card_pos.1 (by omega)

/-- **Four honest prices bound the amount**, and this amount is what is approved. -/
theorem paymentSplit_robust {quotes : List Quote} (hq : quotes.length = closeGroupSize)
    {H : Finset (Fin quotes.length)} (hH : 4 ≤ H.card) :
    ∃ payments m, paymentSplit C quotes = .ok payments ∧ PaysMedian C quotes payments m ∧
      beNat (totalAmount payments).1 ≤
        3 * H.sup' (nonempty_of_four hH) (prices quotes) ∧
      (3 * prices quotes m < 2 ^ 256 →
        3 * H.inf' (nonempty_of_four hH) (prices quotes) ≤
          beNat (totalAmount payments).1) ∧
      ∀ (σ : Type) (I : σ → σ → Prop) address content token vault quoted s ev tr o s',
        quoted.map QuotedPeer.quote = quotes →
        Run I (payAndPut C address content token vault quoted) s (ev :: tr) o s' →
        ∃ r, ev = ⟨.pay (toHex token) (hex0x (approveCalldata vault (totalAmount payments))), r⟩ := by
  obtain ⟨payments, hs, h⟩ := paymentSplit_paysMedian C hq
  have hr : rank (prices quotes) (medianIdx quotes hq) = 3 := rank_medianIdx hq
  have hl : quotes.length = 7 := hq
  obtain ⟨i, hi, hle⟩ : ∃ i ∈ H, prices quotes (medianIdx quotes hq) ≤ prices quotes i :=
    exists_ge_of_rank (by omega)
  obtain ⟨j, hj, hge⟩ : ∃ j ∈ H, prices quotes j ≤ prices quotes (medianIdx quotes hq) :=
    exists_le_of_rank (by omega)
  refine ⟨payments, medianIdx quotes hq, hs, h, ?_, ?_, ?_⟩
  · have hsup := Finset.le_sup' (prices quotes) hi
    have hmod := Nat.mod_le (3 * prices quotes (medianIdx quotes hq)) (2 ^ 256)
    rw [h.amount]
    omega
  · intro hlt
    have hinf := Finset.inf'_le (prices quotes) hj
    rw [h.amount, Nat.mod_eq_of_lt (by omega)]
    omega
  · rintro σ I address content token vault quoted s ev tr o s' rfl hrun
    exact payAndPut_approves C hs hrun

theorem paymentSplit_robust_unsorted :
    ∃ payments, paymentSplit .transparent unsortedQuotes = .ok payments ∧
      beNat (totalAmount payments).1 ≤ 3 * 60 := by
  have hH : 4 ≤ (Finset.univ.filter fun i => prices unsortedQuotes i ≤ 60).card := by decide
  obtain ⟨payments, m, hs, -, hle, -⟩ :=
    paymentSplit_robust .transparent (by rfl : unsortedQuotes.length = _) hH
  refine ⟨payments, hs, hle.trans (Nat.mul_le_mul_left 3 (Finset.sup'_le _ _ fun i hi => ?_))⟩
  simpa using hi

/-! ## Wrapping -/

/-- Three times the median price is below a bound just if this holds of four prices. -/
theorem median_lt_iff {quotes : List Quote} (hq : quotes.length = closeGroupSize) (b : ℕ) :
    3 * prices quotes (medianIdx quotes hq) < b ↔
      4 ≤ (Finset.univ.filter fun i => 3 * prices quotes i < b).card := by
  have hr : rank (prices quotes) (medianIdx quotes hq) = 3 := rank_medianIdx hq
  constructor
  · intro hlt
    have h := rank_lt_card_le (prices quotes) (medianIdx quotes hq)
    rw [hr] at h
    refine h.trans_le (Finset.card_le_card fun i hi => ?_)
    simp only [Finset.mem_filter, Finset.mem_univ, true_and] at hi ⊢
    omega
  · intro hc
    obtain ⟨i, hi, hle⟩ : ∃ i ∈ Finset.univ.filter fun i => 3 * prices quotes i < b,
        prices quotes (medianIdx quotes hq) ≤ prices quotes i := exists_ge_of_rank (by omega)
    simp only [Finset.mem_filter, Finset.mem_univ, true_and] at hi
    omega

/-- **When the amount is exact**: just if four of the seven prices are below a third of
    `2 ^ 256`. -/
theorem paymentSplit_exact_iff {quotes : List Quote} {payments : List DataPayment}
    (h : paymentSplit C quotes = .ok payments) :
    (∀ m, rank (prices quotes) m = 3 →
      ∃ p, payments[(m : ℕ)]? = some p ∧ beNat p.2.1.1 = 3 * prices quotes m) ↔
    4 ≤ (Finset.univ.filter fun i => 3 * prices quotes i < 2 ^ 256).card := by
  have hq := paymentSplit_length C h
  obtain ⟨payments', hs, hm⟩ := paymentSplit_paysMedian C hq
  cases h.symm.trans hs
  rw [← median_lt_iff hq]
  constructor
  · intro hex
    obtain ⟨p, hp, hamt⟩ := hex _ (rank_medianIdx hq)
    rw [hm.entry, if_pos rfl] at hp
    cases hp
    rw [← hamt, beNat_price_mul_three]
    exact Nat.mod_lt _ (by simp)
  · intro hlt m hr
    cases hm.unique hr
    refine ⟨_, hm.entry _, ?_⟩
    rw [if_pos rfl]
    exact (beNat_price_mul_three _).trans (Nat.mod_eq_of_lt hlt)

theorem paymentSplit_exact_unsorted :
    ∃ payments, paymentSplit .transparent unsortedQuotes = .ok payments ∧
      ∀ m, rank (prices unsortedQuotes) m = 3 →
        ∃ p, payments[(m : ℕ)]? = some p ∧ beNat p.2.1.1 = 3 * prices unsortedQuotes m := by
  obtain ⟨payments, hs, -⟩ :=
    paymentSplit_paysMedian .transparent (by rfl : unsortedQuotes.length = _)
  exact ⟨payments, hs, (paymentSplit_exact_iff .transparent hs).2 (by decide)⟩

/-- A price of `2 ^ 255`. -/
def dearQuote : Quote := { pinnedQuote with price := ⟨0x80 :: List.replicate 31 0, by simp⟩ }

/-- Seven quotes of `2 ^ 255` are paid with `2 ^ 255`. -/
theorem paymentSplit_wraps : ∃ payments m p,
    paymentSplit .transparent (List.replicate 7 dearQuote) = .ok payments ∧
    rank (prices (List.replicate 7 dearQuote)) m = 3 ∧ payments[(m : ℕ)]? = some p ∧
    beNat p.2.1.1 = 2 ^ 255 ∧ prices (List.replicate 7 dearQuote) m = 2 ^ 255 ∧
    beNat p.2.1.1 ≠ 3 * prices (List.replicate 7 dearQuote) m := by
  have hq : (List.replicate 7 dearQuote).length = closeGroupSize := by simp [closeGroupSize]
  obtain ⟨payments, hs, hm⟩ := paymentSplit_paysMedian .transparent hq
  have hp : beNat (0x80 :: List.replicate 31 0) = 2 ^ 255 := by
    rw [beNat_cons, beNat_replicate_zero]
    simp
  have hprice : ∀ i, prices (List.replicate 7 dearQuote) i = 2 ^ 255 := by
    intro i
    rw [prices, List.get_eq_getElem, List.getElem_replicate]
    exact hp
  have hamount : beNat (u256MulU64 ((List.replicate 7 dearQuote).get
      (medianIdx (List.replicate 7 dearQuote) hq)).price 3).1 = 2 ^ 255 := by
    rw [u256MulU64_spec, List.get_eq_getElem, List.getElem_replicate]
    show beNat (0x80 :: List.replicate 31 0) * 3 % 256 ^ 32 = 2 ^ 255
    rw [hp]
    norm_num
  refine ⟨payments, _, _, hs, rank_medianIdx hq, hm.entry _, ?_, hprice _, ?_⟩
  · rw [if_pos rfl]
    exact hamount
  · rw [if_pos rfl, hamount, hprice]
    norm_num

end AntClient
