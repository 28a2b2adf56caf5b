/-
  The rounds of a download.

  A run of the loop is described by its rounds, each with the retrieval it starts from
  and the results of its fetches.

  * `loopRun_of_run`: the runs of the loop, however far they get.
  * `download_ends`: there are at most two rounds, and the loop ends with the last
    step of a complete retrieval or with the error of a round.
  * `download_once_iff`: when no address is requested twice.
-/
import AntClient.Download

namespace AntClient

open Async Prog

variable {DataMap : Type} (S : SelfEncryption DataMap)

/-- A round: the retrieval before it, and what its fetches return. -/
structure Round where
  before : Retrieval DataMap
  fetched : {results : List (Except String Bytes) //
    results.length = (before.requiredAddresses S).length}

variable {S} in
/-- The fetches of a round. -/
def Round.event (p : Round S) : Ev Fetches := ⟨.all (p.before.requiredAddresses S), p.fetched⟩

variable {S} in
/-- The retrieval before `advance`, if every chunk is fetched and verified. -/
def Round.supplied (p : Round S) : Except String (Retrieval DataMap) :=
  match p.before.supplyAll S ((p.before.requiredAddresses S).zip p.fetched.1) with
  | (.error e, _, _) => .error e
  | (.ok (), r, _) => .ok r

variable {S} in
/-- The retrieval after a round. -/
def Round.next (p : Round S) : Except String (Retrieval DataMap) :=
  match p.supplied with
  | .error e => .error e
  | .ok r =>
    match r.advance S with
    | (.error e, _) => .error e
    | (.ok (), r') => .ok r'

/-- How a run of the loop ends. -/
inductive LoopExit (DataMap : Type)
  | stopped
  | failed (e : String)
  | finished (retrieval : Retrieval DataMap)

def LoopExit.result : LoopExit DataMap → Option (Except String Bytes)
  | .stopped => none
  | .failed e => some (.error e)
  | .finished r => some (r.finish S)

/-- The rounds of a run of the loop. -/
inductive LoopRun : Retrieval DataMap → List (Round S) → LoopExit DataMap → Prop
  | stopped {r} : LoopRun r [] .stopped
  | finished {r} : r.isComplete S = true → LoopRun r [] (.finished r)
  | cut {p} : ¬ p.before.isComplete S = true → LoopRun p.before [p] .stopped
  | failed {p e} : ¬ p.before.isComplete S = true → p.next = .error e →
      LoopRun p.before [p] (.failed e)
  | round {p r ps exit} : ¬ p.before.isComplete S = true → p.next = .ok r → LoopRun r ps exit →
      LoopRun p.before (p :: ps) exit

section
variable {S} {r r' : Retrieval DataMap} {p : Round S}

/-! ## One round -/

theorem Round.supplied_ok (h : p.supplied = .ok r) :
    r.requiredAddresses S = [] ∧ r.rootResolved = p.before.rootResolved ∧
      ∀ a, r.cache.contains a = true ↔
        p.before.cache.contains a = true ∨ a ∈ p.before.requiredAddresses S := by
  unfold Round.supplied at h
  split at h
  · cases h
  · rename_i r₁ n hs
    cases h
    obtain ⟨-, hroot, hcache, -⟩ := Retrieval.supplyAll_ok hs
    refine ⟨Retrieval.supplyAll_requiredAddresses p.fetched.2 hs, hroot, fun a => ?_⟩
    rw [hcache, List.map_fst_zip p.fetched.2.ge]

theorem Retrieval.advance_cache (h : r.advance S = (.ok (), r')) : r'.cache = r.cache := by
  unfold Retrieval.advance at h
  split at h
  · cases h
    rfl
  · split at h
    · cases h
    · cases h
      rfl

/-- The round ends as `advance` does. -/
theorem Round.next_of_advance {fetched : {results : List (Except String Bytes) //
      results.length = (r.requiredAddresses S).length}} {r₁ r₂ : Retrieval DataMap} {n : ℕ}
    {result : Except String Unit}
    (hs : r.supplyAll S ((r.requiredAddresses S).zip fetched.1) = (.ok (), r₁, n))
    (ha : r₁.advance S = (result, r₂)) :
    Round.next (S := S) ⟨r, fetched⟩ = result.map fun _ => r₂ := by
  rw [Round.next, Round.supplied, hs]
  dsimp only
  rw [ha]
  cases result <;> rfl

/-- **What a round does**: the addresses it asks for are held, and the root map is
    resolved; if it was before, the retrieval is complete. -/
theorem Round.next_ok (h : p.next = .ok r) :
    r.rootResolved = true ∧ (p.before.rootResolved = true → r.isComplete S = true) ∧
      ∀ a, r.cache.contains a = true ↔
        p.before.cache.contains a = true ∨ a ∈ p.before.requiredAddresses S := by
  unfold Round.next at h
  split at h
  · cases h
  rename_i r₁ hs
  split at h
  · cases h
  rename_i r₂ ha
  cases h
  obtain ⟨hn, hroot, hcache⟩ := Round.supplied_ok hs
  obtain ⟨h1, h2⟩ := Retrieval.advance_ok hn ha
  refine ⟨h1, fun hr => ?_, fun a => ?_⟩
  · rw [h2 (hroot.trans hr), Retrieval.isComplete, hn, hroot, hr]
    rfl
  · rw [Retrieval.advance_cache ha, hcache]

/-! ## The runs of the loop -/

theorem loopRun_of_run {I : Cells → Cells → Prop} {s s' : Cells} {tr : List (Ev Fetches)}
    {o : Option (Except String Bytes)} (h : Run I (downloadLoop S r) s tr o s') :
    ∃ ps exit, LoopRun S r ps exit ∧ tr = ps.map Round.event ∧ o = exit.result S := by
  -- induction on the number of rounds left
  induction hm : r.remaining S using Nat.strong_induction_on generalizing r s tr with
  | _ m ih =>
    rw [downloadLoop] at h
    split at h
    · rename_i hc
      cases h with
      | ret => exact ⟨[], .finished r, .finished hc, rfl, rfl⟩
      | stop => exact ⟨[], .stopped, .stopped, rfl, rfl⟩
    rename_i hc
    cases h with
    | stop => exact ⟨[], .stopped, .stopped, rfl, rfl⟩
    | call fetched hi h =>
      have hcut : LoopRun S r [⟨r, fetched⟩] .stopped := LoopRun.cut (p := ⟨r, fetched⟩) hc
      dsimp only at h
      split at h
      · rename_i e r₁ n hs
        have hnext : Round.next (S := S) ⟨r, fetched⟩ = .error e := by
          rw [Round.next, Round.supplied, hs]
        cases h with
        | stop => exact ⟨_, _, hcut, rfl, rfl⟩
        | sync h =>
          cases h with
          | stop => exact ⟨_, _, hcut, rfl, rfl⟩
          | ret => exact ⟨_, _, .failed (p := ⟨r, fetched⟩) hc hnext, rfl, rfl⟩
      · rename_i r₁ n hs
        cases h with
        | stop => exact ⟨_, _, hcut, rfl, rfl⟩
        | sync h =>
          split at h
          · rename_i e r₂ ha
            have hnext : Round.next (S := S) ⟨r, fetched⟩ = .error e :=
              Round.next_of_advance hs ha
            cases h with
            | stop => exact ⟨_, _, hcut, rfl, rfl⟩
            | ret => exact ⟨_, _, .failed (p := ⟨r, fetched⟩) hc hnext, rfl, rfl⟩
          · rename_i r₂ ha
            have hnext : Round.next (S := S) ⟨r, fetched⟩ = .ok r₂ :=
              Round.next_of_advance hs ha
            obtain ⟨ps, exit, hrun, rfl, rfl⟩ :=
              ih _ (hm ▸ Retrieval.remaining_lt hc fetched.2 hs ha) h rfl
            exact ⟨_, _, .round (p := ⟨r, fetched⟩) hc hnext hrun, rfl, rfl⟩

/-! ## Termination -/

theorem LoopRun.of_isComplete {ps : List (Round S)} {exit : LoopExit DataMap}
    (h : LoopRun S r ps exit) (hc : r.isComplete S = true) : ps = [] := by
  cases h with
  | stopped => rfl
  | finished => rfl
  | cut hn => exact absurd hc hn
  | failed hn => exact absurd hc hn
  | round hn => exact absurd hc hn

/-- Once the root map is resolved there is one round at most. -/
theorem LoopRun.of_rootResolved {ps : List (Round S)} {exit : LoopExit DataMap}
    (h : LoopRun S r ps exit) (hr : r.rootResolved = true) :
    ps = [] ∨ ∃ p, ps = [p] ∧ p.before = r := by
  cases h with
  | stopped => exact Or.inl rfl
  | finished => exact Or.inl rfl
  | cut => exact Or.inr ⟨_, rfl, rfl⟩
  | failed => exact Or.inr ⟨_, rfl, rfl⟩
  | round hn hnext hrun =>
    rw [hrun.of_isComplete ((Round.next_ok hnext).2.1 hr)]
    exact Or.inr ⟨_, rfl, rfl⟩

theorem LoopRun.length_le_two {ps : List (Round S)} {exit : LoopExit DataMap}
    (h : LoopRun S r ps exit) : ps.length ≤ 2 := by
  cases h with
  | stopped => simp
  | finished => simp
  | cut => simp
  | failed => simp
  | round hn hnext hrun =>
    rcases hrun.of_rootResolved (Round.next_ok hnext).1 with rfl | ⟨p, rfl, -⟩
    · simp
    · simp

/-- A run that is finished has a complete retrieval. -/
theorem LoopRun.isComplete {ps : List (Round S)} {r' : Retrieval DataMap}
    (h : LoopRun S r ps (.finished r')) : r'.isComplete S = true := by
  generalize he : LoopExit.finished r' = exit at h
  induction h with
  | stopped => cases he
  | finished hc =>
    cases he
    exact hc
  | cut => cases he
  | failed => cases he
  | round _ _ _ ih => exact ih he

/-- The last step of a complete retrieval fails only in the decryption. -/
theorem Retrieval.finish_of_isComplete (hc : r.isComplete S = true) :
    ∃ chunks, r.finish S =
      (S.decrypt r.map chunks).mapError fun e => s!"decryption failed: {e}" := by
  have hc' := hc
  rw [isComplete, Bool.and_eq_true, List.isEmpty_iff] at hc'
  have hheld : ∀ a ∈ S.infos r.map, r.held a = .ok ((r.cache[a]?).getD ⟨[]⟩) := by
    intro a ha
    have hcache := contains_of_requiredAddresses hc'.2 ha
    rw [Std.HashMap.contains_eq_isSome_getElem?, Option.isSome_iff_exists] at hcache
    obtain ⟨chunk, hchunk⟩ := hcache
    rw [held, hchunk, Option.getD_some]
  refine ⟨(S.infos r.map).map fun a => (r.cache[a]?).getD ⟨[]⟩, ?_⟩
  rw [Retrieval.finish, if_neg (by simp [hc]), mapM_ok hheld]
  dsimp only
  cases S.decrypt r.map _ <;> rfl

/-- The errors of `finish` for a retrieval that is not ready. -/
def NotReady (result : Except String Bytes) : Prop :=
  result = .error "cannot finish: chunks missing or root map unresolved" ∨
    ∃ a : XorName, result = .error s!"missing chunk {hexEncode a.1}"

theorem Retrieval.finish_ready (hc : r.isComplete S = true) : ¬ NotReady (r.finish S) := by
  obtain ⟨chunks, hf⟩ := Retrieval.finish_of_isComplete hc
  rw [hf]
  cases S.decrypt r.map chunks with
  | ok plaintext =>
    rintro (h | ⟨a, h⟩)
    · cases h
    · cases h
  | error e =>
    -- the texts differ in the first letter
    have hd : s!"decryption failed: {e}".toList.head? = some 'd' := by simp [toString]
    rintro (h | ⟨a, h⟩)
    · have ht : s!"decryption failed: {e}" = _ := Except.error.inj h
      rw [ht] at hd
      simp at hd
    · have ht : s!"decryption failed: {e}" = _ := Except.error.inj h
      rw [ht] at hd
      simp [toString] at hd

/-! ## Requests -/

/-- The addresses that the rounds ask for. -/
def requested (tr : List (Ev Fetches)) : List XorName :=
  tr.flatMap fun ev => match ev.req with
    | .one _ => []
    | .all addresses => addresses

@[simp] theorem requested_nil : requested [] = [] := rfl

@[simp] theorem requested_cons (p : Round S) (tr : List (Ev Fetches)) :
    requested (p.event :: tr) = p.before.requiredAddresses S ++ requested tr := rfl

/-- What a round asks for is not held when the round begins. -/
theorem LoopRun.not_held {ps : List (Round S)} {exit : LoopExit DataMap} (h : LoopRun S r ps exit)
    {a : XorName} (ha : a ∈ requested (ps.map Round.event)) : r.cache.contains a = false := by
  induction h with
  | stopped => simp at ha
  | finished => simp at ha
  | cut =>
    simp only [List.map_cons, List.map_nil, requested_cons, requested_nil, List.append_nil] at ha
    exact (Retrieval.mem_requiredAddresses.1 ha).2
  | failed =>
    simp only [List.map_cons, List.map_nil, requested_cons, requested_nil, List.append_nil] at ha
    exact (Retrieval.mem_requiredAddresses.1 ha).2
  | round _ hnext _ ih =>
    rw [List.map_cons, requested_cons, List.mem_append, Retrieval.mem_requiredAddresses] at ha
    rcases ha with ha | ha
    · exact ha.2
    · have hn := ih ha
      by_contra hc
      rw [((Round.next_ok hnext).2.2 a).2 (Or.inl (by simpa using hc))] at hn
      cases hn

/-- The map lists each address that is not held once. -/
def Retrieval.ListsOnce (S : SelfEncryption DataMap) (r : Retrieval DataMap) : Prop :=
  ∀ a ∈ S.infos r.map, r.cache.contains a = false → (S.infos r.map).count a = 1

theorem Retrieval.nodup_requiredAddresses : (r.requiredAddresses S).Nodup ↔ r.ListsOnce S := by
  rw [List.nodup_iff_count_eq_one]
  constructor
  · intro h a ha hc
    have hcount := h a (Retrieval.mem_requiredAddresses.2 ⟨ha, hc⟩)
    rwa [Retrieval.requiredAddresses, List.count_filter (by simp [hc])] at hcount
  · intro h a ha
    obtain ⟨hm, hc⟩ := Retrieval.mem_requiredAddresses.1 ha
    rw [Retrieval.requiredAddresses, List.count_filter (by simp [hc])]
    exact h a hm hc

/-- An address is repeated only within a round. -/
theorem LoopRun.nodup_iff {ps : List (Round S)} {exit : LoopExit DataMap}
    (h : LoopRun S r ps exit) :
    (requested (ps.map Round.event)).Nodup ↔ ∀ p ∈ ps, p.before.ListsOnce S := by
  induction h with
  | stopped => simp
  | finished => simp
  | cut => simp [Retrieval.nodup_requiredAddresses]
  | failed => simp [Retrieval.nodup_requiredAddresses]
  | @round p r ps exit hn hnext hrun ih =>
    have hdisj : ∀ a ∈ p.before.requiredAddresses S, a ∉ requested (ps.map Round.event) := by
      intro a ha ha'
      have hheld := hrun.not_held ha'
      rw [((Round.next_ok hnext).2.2 a).2 (Or.inr ha)] at hheld
      cases hheld
    rw [List.map_cons, requested_cons, List.nodup_append', ih, Retrieval.nodup_requiredAddresses,
      List.forall_mem_cons]
    exact ⟨fun h => ⟨h.1, h.2.1⟩, fun h => ⟨h.1, h.2, hdisj⟩⟩

/-! ## The download -/

section
variable {address : XorName} {bytes : Bytes} {I : Cells → Cells → Prop} {s s' : Cells}
  {tr : List (Ev Fetches)} {o : Option (Except String Bytes)}

theorem loopRun_of_download (hs : Retrieval.start S address bytes = .ok r)
    (h : Run I (downloadFrom S address) s (⟨.one address, .ok bytes⟩ :: tr) o s') :
    ∃ ps exit, LoopRun S r ps exit ∧ tr = ps.map Round.event ∧ o = exit.result S := by
  cases h with
  | sync h =>
    cases h with
    | call _ _ h =>
      cases h with
      | stop => exact ⟨[], .stopped, .stopped, rfl, rfl⟩
      | sync h =>
        rw [hs, ret_ok_bindE] at h
        exact loopRun_of_run h

/-- **The download ends**: the loop runs at most two rounds, whatever the map and the
    answers; a round without an error leaves nothing to ask for; and the last step does
    not find the retrieval unready. -/
theorem download_ends (hs : Retrieval.start S address bytes = .ok r)
    (h : Run I (downloadFrom S address) s (⟨.one address, .ok bytes⟩ :: tr) o s') :
    ∃ ps exit, LoopRun S r ps exit ∧ tr = ps.map Round.event ∧ o = exit.result S ∧
      ps.length ≤ 2 ∧
      (∀ p ∈ ps, ∀ r₁, p.supplied = .ok r₁ → r₁.requiredAddresses S = []) ∧
      ∀ r', exit = .finished r' → ¬ NotReady (r'.finish S) := by
  obtain ⟨ps, exit, hrun, htr, ho⟩ := loopRun_of_download hs h
  refine ⟨ps, exit, hrun, htr, ho, hrun.length_le_two, ?_, ?_⟩
  · intro p _ r₁ hp
    exact (Round.supplied_ok hp).1
  · rintro r' rfl
    exact Retrieval.finish_ready hrun.isComplete

/-- **No address is requested twice** just if each round works on a map that lists the
    addresses it does not hold once. -/
theorem download_once_iff (hs : Retrieval.start S address bytes = .ok r)
    (h : Run I (downloadFrom S address) s (⟨.one address, .ok bytes⟩ :: tr) o s') :
    ∃ ps exit, LoopRun S r ps exit ∧ tr = ps.map Round.event ∧ o = exit.result S ∧
      ((requested tr).Nodup ↔ ∀ p ∈ ps, p.before.ListsOnce S) := by
  obtain ⟨ps, exit, hrun, rfl, ho⟩ := loopRun_of_download hs h
  exact ⟨ps, exit, hrun, rfl, ho, hrun.nodup_iff⟩

end

/-- A complete run from a retrieval that is not complete has a first round. -/
theorem LoopRun.first {ps : List (Round S)} {exit : LoopExit DataMap} (h : LoopRun S r ps exit)
    (hc : ¬ r.isComplete S = true) (hexit : exit.result S ≠ none) :
    ∃ p ps', ps = p :: ps' ∧ p.before = r := by
  cases h with
  | stopped => exact absurd rfl hexit
  | finished h => exact absurd h hc
  | cut => exact absurd rfl hexit
  | failed => exact ⟨_, _, rfl, rfl⟩
  | round => exact ⟨_, _, rfl, rfl⟩

end

/-! ## Repeated chunks -/

/-- Fetches that are answered with the bytes `serve` says. -/
def serveFetches (serve : XorName → Bytes) : ∀ e, Fetches.Ans e
  | .one address => .ok (serve address)
  | .all addresses => ⟨addresses.map fun a => .ok (serve a), by simp⟩

/-- The download of a served map. -/
theorem exists_download_run (S : SelfEncryption DataMap) (serve : XorName → Bytes)
    (address : XorName) :
    ∃ tr result s', Run (Any Cells) (downloadFrom S address) .empty
      (⟨.one address, .ok (serve address)⟩ :: tr) (some result) s' :=
  ⟨_, _, _, exec_run (serveFetches serve) (fun _ => trivial) (downloadFrom S address) .empty⟩

/-- A self-encryption to evaluate the model on: a map lists all chunks of the file. -/
def SelfEncryption.flat : SelfEncryption (List XorName) :=
  { SelfEncryption.transparent with infos := id, isChild := fun _ => false }

theorem SelfEncryption.flat_start {map : List XorName} (h : map.length < 2 ^ 32) :
    Retrieval.start .flat (mapAddress map) (serveMap map (mapAddress map)) =
      .ok ⟨map, true, ∅⟩ := by
  have hserve : serveMap map (mapAddress map) = Postcard.vec Subtype.val map := if_pos rfl
  have hv : SelfEncryption.flat.verifyChunk (mapAddress map) (Postcard.vec Subtype.val map) =
      .ok ⟨Postcard.vec Subtype.val map⟩ := if_pos rfl
  have hf : SelfEncryption.flat.fromSlice (Postcard.vec Subtype.val map) = .ok map :=
    SelfEncryption.transparent_fromSlice h
  rw [Retrieval.start, hserve, hv, hf]
  rfl

/-- What the first round over a map asks for. -/
theorem SelfEncryption.flat_requiredAddresses (map : List XorName) :
    Retrieval.requiredAddresses .flat ⟨map, true, ∅⟩ = map := by
  simp [Retrieval.requiredAddresses, SelfEncryption.flat]

/-- The download of a served map: its only round asks for the chunks of the map. -/
theorem exists_flat_run {map : List XorName} (hl : map.length < 2 ^ 32) (hne : map ≠ []) :
    ∃ (p : Round SelfEncryption.flat) (result : Except String Bytes) (s' : Cells),
      Run (Any Cells) (downloadFrom .flat (mapAddress map)) .empty
        [⟨.one (mapAddress map), .ok (serveMap map (mapAddress map))⟩, p.event] (some result) s' ∧
      p.before = ⟨map, true, ∅⟩ := by
  obtain ⟨tr, result, s', h⟩ := exists_download_run .flat (serveMap map) (mapAddress map)
  obtain ⟨ps, exit, hrun, rfl, ho⟩ := loopRun_of_download (SelfEncryption.flat_start hl) h
  have hc : ¬ Retrieval.isComplete .flat ⟨map, true, ∅⟩ = true := by
    simp [Retrieval.isComplete, SelfEncryption.flat_requiredAddresses, hne]
  obtain ⟨p, ps', rfl, hp⟩ := hrun.first hc (by rw [← ho]; simp)
  obtain ⟨q, hq, -⟩ := (hrun.of_rootResolved rfl).resolve_left (List.cons_ne_nil _ _)
  obtain ⟨-, rfl⟩ := List.cons.inj hq
  exact ⟨p, result, s', h, hp⟩

/-- The map of a file with two equal chunks. -/
def repeatedMap : List XorName := [Arr.replicate 32 1, Arr.replicate 32 1]

/-- The map of a file with two different chunks. -/
def distinctMap : List XorName := [Arr.replicate 32 1, Arr.replicate 32 2]

theorem download_ends_repeated :
    ∃ tr result s', Run (Any Cells) (downloadFrom .flat (mapAddress repeatedMap)) .empty
        (⟨.one (mapAddress repeatedMap), .ok (serveMap repeatedMap (mapAddress repeatedMap))⟩ :: tr)
        (some result) s' ∧ tr.length ≤ 2 := by
  have hl : repeatedMap.length < 2 ^ 32 := by simp [repeatedMap]
  obtain ⟨p, result, s', h, -⟩ := exists_flat_run hl (by simp [repeatedMap])
  obtain ⟨ps, exit, -, htr, -, hlen, -⟩ := download_ends (SelfEncryption.flat_start hl) h
  exact ⟨_, result, s', h, by simpa [htr] using hlen⟩

theorem download_once_distinct :
    ∃ tr result s', Run (Any Cells) (downloadFrom .flat (mapAddress distinctMap)) .empty
        (⟨.one (mapAddress distinctMap), .ok (serveMap distinctMap (mapAddress distinctMap))⟩ :: tr)
        (some result) s' ∧ (requested tr).Nodup := by
  have hl : distinctMap.length < 2 ^ 32 := by simp [distinctMap]
  obtain ⟨p, result, s', h, -⟩ := exists_flat_run hl (by simp [distinctMap])
  obtain ⟨ps, exit, hrun, -, -, hiff⟩ := download_once_iff (SelfEncryption.flat_start hl) h
  refine ⟨_, result, s', h, hiff.2 fun q hq => ?_⟩
  have hlists : Retrieval.ListsOnce .flat ⟨distinctMap, true, ∅⟩ := by
    rw [← Retrieval.nodup_requiredAddresses, SelfEncryption.flat_requiredAddresses]
    decide
  rcases hrun.of_rootResolved rfl with rfl | ⟨p, rfl, hp⟩
  · cases hq
  · rwa [List.mem_singleton.1 hq, hp]

/-- **A repeated chunk is fetched twice** in its round. -/
theorem download_twice :
    ∃ tr result s', Run (Any Cells) (downloadFrom .flat (mapAddress repeatedMap)) .empty
        (⟨.one (mapAddress repeatedMap), .ok (serveMap repeatedMap (mapAddress repeatedMap))⟩ :: tr)
        (some result) s' ∧ ¬ (requested tr).Nodup := by
  have hl : repeatedMap.length < 2 ^ 32 := by simp [repeatedMap]
  obtain ⟨p, result, s', h, hp⟩ := exists_flat_run hl (by simp [repeatedMap])
  refine ⟨_, result, s', h, fun hnodup => ?_⟩
  rw [requested_cons, hp, SelfEncryption.flat_requiredAddresses] at hnodup
  simp [repeatedMap] at hnodup

end AntClient
