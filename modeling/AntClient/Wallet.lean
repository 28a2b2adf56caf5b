/-
  The wallet over a whole upload (`lib.rs`).

  `Ledger` is what the two contracts keep for the wallet of the page: the allowance of the
  vault, and what the vault has drawn.  The contracts read the calldata with a standard ABI
  decoder; `payForQuotes` draws the sum of its payments and fails without the allowance.
  A call that failed is the last one, whether it took effect or not.

  * `Bill`: the payment for one chunk, with the quotes that it pays.
  * `Billing`: the calls for the items of an upload, in their order.
  * `upload_wallet`: every upload bills its items so, and the contracts take every call.
-/
import AntClient.Upload
import AntClient.Lib.Lts

namespace AntClient

open Async Prog Bytes

variable (C : Crates) (token vault : Arr 20)

/-! ## The contracts -/

/-- What the contracts keep for the wallet. -/
structure Ledger where
  /-- what the vault may still draw -/
  allowance : ℕ
  /-- what it has drawn -/
  drawn : ℕ

inductive Ledger.Step : Ledger → Ev Net → Ledger → Prop
  | approve {l calldata amount r} : decodeApprove calldata = some ((vault, amount), []) →
      Step l ⟨.pay (toHex token) (hex0x calldata), r⟩ { l with allowance := beNat amount.1 }
  | payForQuotes {l calldata payments r} : decodePayForQuotes C calldata = some (payments, []) →
      sumAmounts payments ≤ l.allowance →
      Step l ⟨.pay (toHex vault) (hex0x calldata), r⟩
        ⟨l.allowance - sumAmounts payments, l.drawn + sumAmounts payments⟩

/-! ## Bills -/

/-- The payment for a chunk: one verified quote for its address from each of the peers. -/
structure Bill where
  item : XorName × Bytes
  quoted : List QuotedPeer
  payments : List DataPayment
  good : ∀ q ∈ quoted, q.quote.content = item.1 ∧ C.blake3 q.quote.pubKey = q.peerId ∧
    verifyQuote C q.quote = true
  split : paymentSplit C (quoted.map QuotedPeer.quote) = .ok payments

def Bill.amount {C : Crates} (b : Bill C) : ℕ := sumAmounts b.payments

/-- The calls for the items, in order, and what becomes of the ledger. -/
inductive Billing : List (XorName × Bytes) → Ledger → List (Ev Net) → Ledger → Prop
  /-- no more calls -/
  | done {items l} : Billing items l [] l
  /-- an item without a payment -/
  | free {x items l calls l'} : Billing items l calls l' → Billing (x :: items) l calls l'
  /-- the last call is an approval -/
  | approved {items l r} (b : Bill C) :
      Billing (b.item :: items) l [approveEvent token vault b.payments r] { l with allowance := b.amount }
  /-- both calls; after another item only if the second one was answered with a hash -/
  | paid {items l r₁ text r₂ calls l'} (b : Bill C) : payResult r₁ = .ok text →
      (calls ≠ [] → ∃ txHash, (payResult r₂ >>= parseTxHash C) = .ok txHash) →
      Billing items ⟨0, l.drawn + b.amount⟩ calls l' →
      Billing (b.item :: items) l (approveEvent token vault b.payments r₁ ::
        payForQuotesEvent C vault b.payments r₂ :: calls) l'

variable {C token vault} {client : WasmClient}

theorem Bill.decodes (b : Bill C) :
    decodePayForQuotes C (payForQuotesCalldata C b.payments) = some (b.payments, []) := by
  refine decodePayForQuotes_calldata C ?_
  rw [← (paymentSplit_forall₂ C b.split).length_eq, paymentSplit_length C b.split]
  decide

theorem Bill.approve_step (b : Bill C) {l : Ledger} {r : PayOutcome} :
    Ledger.Step C token vault l (approveEvent token vault b.payments r)
      { l with allowance := b.amount } := by
  have hstep : Ledger.Step C token vault l (approveEvent token vault b.payments r) _ :=
    .approve (decodeApprove_calldata vault (totalAmount b.payments))
  rwa [totalAmount_split C b.split] at hstep

theorem Bill.pay_step (b : Bill C) {n : ℕ} {r : PayOutcome} :
    Ledger.Step C token vault ⟨b.amount, n⟩ (payForQuotesEvent C vault b.payments r)
      ⟨0, n + b.amount⟩ := by
  have hstep : Ledger.Step C token vault ⟨b.amount, n⟩ (payForQuotesEvent C vault b.payments r) _ :=
    .payForQuotes b.decodes (Nat.le_refl _)
  rwa [show b.amount - sumAmounts b.payments = 0 from Nat.sub_self _] at hstep

/-- The contracts take every call of a billing: no draw exceeds the allowance. -/
theorem Billing.run {items : List (XorName × Bytes)} {l l' : Ledger} {calls : List (Ev Net)}
    (h : Billing C token vault items l calls l') :
    Lts.Run (Ledger.Step C token vault) l calls l' := by
  induction h with
  | done => exact .start
  | free _ ih => exact ih
  | approved b => exact Lts.Run.cons b.approve_step .start
  | paid b _ _ _ ih => exact Lts.Run.cons b.approve_step (Lts.Run.cons b.pay_step ih)

/-! ## The calls of `store_one` -/

/-- The calls of the callback for one item. -/
inductive ItemCalls (C : Crates) (token vault : Arr 20) (x : XorName × Bytes) :
    List (Ev Net) → Option (Except String Unit) → Prop
  | free {o} : ItemCalls C token vault x [] o
  | approved {r o} (b : Bill C) : b.item = x → o ≠ some (.ok ()) →
      ItemCalls C token vault x [approveEvent token vault b.payments r] o
  | paid {r₁ text r₂ o} (b : Bill C) : b.item = x → payResult r₁ = .ok text →
      (o = some (.ok ()) → ∃ txHash, (payResult r₂ >>= parseTxHash C) = .ok txHash) →
      ItemCalls C token vault x
        [approveEvent token vault b.payments r₁, payForQuotesEvent C vault b.payments r₂] o

section
variable {x : XorName × Bytes} {tr : List (Ev Net)} {o : Except String Unit}

theorem PayRun.itemCalls {quoted : List QuotedPeer}
    (hgood : ∀ q ∈ quoted, q.quote.content = x.1 ∧ C.blake3 q.quote.pubKey = q.peerId ∧
      verifyQuote C q.quote = true)
    (h : PayRun C x.1 x.2 token vault quoted tr o) :
    ItemCalls C token vault x (pays tr) (some o) := by
  cases h with
  | noSplit => exact .free
  | unapproved hs => exact .approved ⟨x, quoted, _, hgood, hs⟩ rfl (by simp)
  | unpaid hs h₁ => exact .paid ⟨x, quoted, _, hgood, hs⟩ rfl h₁ (by simp)
  | @put payments r₁ text₁ r₂ txHash proofBytes seg acc o hs h₁ h₂ _ hput =>
    have hpays : pays (approveEvent token vault payments r₁ ::
        payForQuotesEvent C vault payments r₂ :: seg) =
          [approveEvent token vault payments r₁, payForQuotesEvent C vault payments r₂] := by
      have hseg : pays seg = [] := pays_eq_nil hput.not_pay
      exact congrArg (fun l => approveEvent token vault payments r₁ ::
        payForQuotesEvent C vault payments r₂ :: l) hseg
    rw [hpays]
    exact .paid ⟨x, quoted, _, hgood, hs⟩ rfl h₁ fun _ => ⟨_, h₂⟩

theorem StoreRun.itemCalls (h : StoreRun C client x.1 x.2 token vault (fun _ _ => True) tr o) :
    ItemCalls C token vault x (pays tr) (some o) := by
  rcases h.quiet_or_collected with ⟨hquiet, -⟩ | ⟨peers, qs, A, B, rfl, hcol, -, hpay⟩
  · rw [pays_eq_nil fun ev hev => (hquiet ev hev).1]
    exact .free
  · rw [pays_append, pays_eq_nil fun ev hev => (hcol.quiet ev hev).1, List.nil_append]
    refine hpay.itemCalls fun q hq => ?_
    obtain ⟨peer, -, hid, hcontent, hkey, hverify⟩ := exists_of_mem_right hcol.good.2 q hq
    exact ⟨hcontent, hid ▸ hkey, hverify⟩

/-- A run that was stopped has made the first of the calls. -/
theorem ItemCalls.stop {calls more : List (Ev Net)} {o : Option (Except String Unit)}
    (h : ItemCalls C token vault x (calls ++ more) o) : ItemCalls C token vault x calls none := by
  generalize hl : calls ++ more = l at h
  cases h with
  | free =>
    obtain ⟨rfl, -⟩ := List.append_eq_nil_iff.1 hl
    exact .free
  | approved b hb =>
    rcases List.append_eq_singleton_iff.1 hl with ⟨rfl, -⟩ | ⟨rfl, -⟩
    · exact .free
    · exact .approved b hb nofun
  | paid b hb h₁ =>
    rcases calls with _ | ⟨ev, calls⟩
    · exact .free
    · obtain ⟨rfl, htail⟩ := List.cons.inj hl
      rcases List.append_eq_singleton_iff.1 htail with ⟨rfl, -⟩ | ⟨rfl, -⟩
      · exact .approved b hb nofun
      · exact .paid b hb h₁ nofun

theorem storeOne_itemCalls {I : Cells → Cells → Prop} {s s' : Cells}
    {o : Option (Except String Unit)}
    (h : Run I (client.storeOne C x.1 x.2 token vault) s tr o s') :
    ItemCalls C token vault x (pays tr) o := by
  cases o with
  | some o => exact (storeRun_of_run h).itemCalls
  | none =>
    obtain ⟨tr', o', hrun⟩ := exists_storeRun h
    have hcalls := hrun.itemCalls
    rw [pays_append] at hcalls
    exact hcalls.stop

end

/-! ## Uploads -/

/-- The calls for items that are all stored, before those for other items. -/
theorem StoredAll.billing {items : List (XorName × Bytes)} {tr : List (Ev Net)}
    (h : StoredAll C client token vault items tr) (l : Ledger) :
    ∃ l', (∀ rest calls l'', Billing C token vault rest l' calls l'' →
        Billing C token vault (items ++ rest) l (pays tr ++ calls) l'') ∧
      (pays tr = [] ∧ l' = l ∨ l'.allowance = 0) := by
  induction h generalizing l with
  | nil => exact ⟨l, fun rest calls l'' h => h, Or.inl ⟨rfl, rfl⟩⟩
  | @cons x items s tr s' tr' hr _ ih =>
    rw [pays_append]
    have hx := storeOne_itemCalls hr
    generalize pays tr = block at hx
    cases hx with
    | free =>
      obtain ⟨l', hnext, hleft⟩ := ih l
      exact ⟨l', fun rest calls l'' h => .free (hnext rest calls l'' h), hleft⟩
    | approved b _ ho => exact absurd rfl ho
    | paid b hb h₁ h₂ =>
      subst hb
      obtain ⟨l', hnext, hleft⟩ := ih ⟨0, l.drawn + b.amount⟩
      refine ⟨l', fun rest calls l'' h => .paid b h₁ (fun _ => h₂ rfl) (hnext rest calls l'' h), ?_⟩
      rcases hleft with ⟨-, rfl⟩ | hleft
      · exact Or.inr rfl
      · exact Or.inr hleft

/-- The calls for an item, whatever comes of it. -/
theorem ItemCalls.billing {x : XorName × Bytes} {calls : List (Ev Net)}
    {o : Option (Except String Unit)} (h : ItemCalls C token vault x calls o)
    (rest : List (XorName × Bytes)) (l : Ledger) :
    ∃ l', Billing C token vault (x :: rest) l calls l' := by
  cases h with
  | free => exact ⟨l, .done⟩
  | approved b hb =>
    subst hb
    exact ⟨_, .approved b⟩
  | paid b hb h₁ =>
    subst hb
    exact ⟨_, .paid b h₁ (fun h => absurd rfl h) .done⟩

theorem storeAll_of_upload {items : List (XorName × Bytes)} {mapAddress : XorName}
    {I : Cells → Cells → Prop} {s s' : Cells} {tr : List (Ev Net)}
    {o : Option (Except String String)}
    (h : Run I (bindE (client.storeAll C token vault items) fun _ =>
      .ret (.ok (hexEncode mapAddress.1))) s tr o s') :
    ∃ s₁ o', Run I (client.storeAll C token vault items) s tr o' s₁ ∧
      ∀ address, o = some (.ok address) → o' = some (.ok ()) := by
  rcases Run.bindE_iff.1 h with ⟨rfl, hr⟩ | ⟨e, ho, hr⟩ | ⟨u, tr₁, s₁, tr₂, rfl, hr, hret⟩
  · exact ⟨_, _, hr, nofun⟩
  · refine ⟨_, _, hr, ?_⟩
    rintro address rfl
    rcases ho with ho | ho <;> cases ho
  · obtain ⟨rfl, -, -⟩ := Run.ret_iff.1 hret
    rw [List.append_nil]
    exact ⟨_, _, hr, fun _ _ => rfl⟩

/-- **The wallet over an upload**: its calls are those of a billing of the items in their order,
    whatever was allowed before; the contracts take each of them, and an upload that succeeds
    leaves no allowance. -/
theorem upload_wallet {DataMap : Type} {S : SelfEncryption DataMap} {data : Bytes}
    {tokenAddrHex vaultAddrHex : String} {I : Cells → Cells → Prop} {s s' : Cells}
    {tr : List (Ev Net)} {o : Option (Except String String)}
    (h : Run I (client.upload S C data tokenAddrHex vaultAddrHex) s tr o s') :
    (tr = [] ∧ ∀ address, o ≠ some (.ok address)) ∨
    ∃ token vault items mapAddress, parseEthAddress C tokenAddrHex = .ok token ∧
      parseEthAddress C vaultAddrHex = .ok vault ∧ uploadItems S C data = .ok (items, mapAddress) ∧
      ∀ l, ∃ l', Billing C token vault items l (pays tr) l' ∧
        Lts.Run (Ledger.Step C token vault) l (pays tr) l' ∧
        ∀ address, o = some (.ok address) → pays tr = [] ∧ l' = l ∨ l'.allowance = 0 := by
  unfold WasmClient.upload at h
  cases ht : parseEthAddress C tokenAddrHex with
  | error e =>
    rw [ht] at h
    exact Or.inl (not_ok_of_ret_error h)
  | ok token =>
    cases hv : parseEthAddress C vaultAddrHex with
    | error e =>
      rw [ht, hv] at h
      exact Or.inl (not_ok_of_ret_error h)
    | ok vault =>
      cases hi : uploadItems S C data with
      | error e =>
        rw [ht, hv, hi] at h
        exact Or.inl (not_ok_of_ret_error h)
      | ok x =>
        rw [ht, hv, hi] at h
        refine Or.inr ⟨token, vault, x.1, x.2, rfl, rfl, rfl, fun l => ?_⟩
        obtain ⟨s₁, o', hr, ho⟩ := storeAll_of_upload h
        rcases storeAll_run (hr.mono fun _ _ _ => trivial) with
          ⟨hall, -⟩ | ⟨done, y, rest, trD, s₂, tr₁, o₁, s₃, hitems, rfl, hdone, hy, -, ho'⟩
        · obtain ⟨l', hnext, hleft⟩ := hall.billing l
          have hbill := hnext [] [] l' .done
          rw [List.append_nil, List.append_nil] at hbill
          exact ⟨l', hbill, hbill.run, fun address _ => hleft⟩
        · obtain ⟨l₁, hnext, -⟩ := hdone.billing l
          obtain ⟨l', hlast⟩ := (storeOne_itemCalls hy).billing rest l₁
          have hbill := hnext _ _ _ hlast
          rw [← hitems, ← pays_append] at hbill
          exact ⟨l', hbill, hbill.run, fun address h => absurd (ho address h) ho'⟩

theorem upload_wallet_storing : pays storingRun.1 ≠ [] ∧ ∃ token vault items l',
    Billing .transparent token vault items ⟨5, 0⟩ (pays storingRun.1) l' ∧ l'.allowance = 0 := by
  have hitems : ∃ x items mapAddress,
      uploadItems .transparent .transparent [7] = .ok (x :: items, mapAddress) := ⟨_, _, _, rfl⟩
  obtain ⟨x, items, mapAddress, hi⟩ := hitems
  obtain ⟨⟨hpays, -⟩, hok⟩ := storingRun_paid hi (by simp)
  have hr := storingRun_run (I := Any Cells) fun _ => trivial
  rw [hok] at hr
  rcases upload_wallet hr with ⟨-, hne⟩ | ⟨token, vault, items', _, -, -, -, hbill⟩
  · exact absurd rfl (hne _)
  · obtain ⟨l', hl, -, hleft⟩ := hbill ⟨5, 0⟩
    exact ⟨hpays, token, vault, items', l', hl,
      (hleft _ rfl).resolve_left fun h => hpays h.1⟩

end AntClient
