/-
  Downloads (`lib.rs`): fetch the data map, then round by round the chunks the
  retrieval asks for.

  `downloadFrom` is the download with its fetches as requests; `download`
  implements them by `get_direct`, those of one round concurrently.

  * `downloadFrom_safe`: whatever order the fetches come back in, the result is the
    outcome of the data map.
  * `download_unique`: a node can refuse but cannot lie.
  * `download_levels`: of a map with several levels the download resolves what the
    first one already holds.
-/
import AntClient.Honest
import AntClient.Retrieval

namespace AntClient

open Async Prog

/-! ## The download -/

/-- The calls of `get_direct` in a download. -/
inductive FetchReq
  | one (address : XorName)
  /-- `join_all` over the addresses of a round -/
  | all (addresses : List XorName)

abbrev Fetches : Sig where
  Req := FetchReq
  Ans
    | .one _ => Except String Bytes
    | .all addresses => {results : List (Except String Bytes) // results.length = addresses.length}

variable {DataMap : Type} (S : SelfEncryption DataMap)

/-- The rounds of a download. -/
def downloadLoop (retrieval : Retrieval DataMap) : Prog Fetches Cells (Except String Bytes) :=
  if _hc : retrieval.isComplete S then .ret (retrieval.finish S)
  else
    .call (.all (retrieval.requiredAddresses S)) fun fetched =>
    match _hs : retrieval.supplyAll S ((retrieval.requiredAddresses S).zip fetched.1) with
    | (.error e, _, n) => .sync (Cells.addFetched n) fun _ => .ret (.error e)
    | (.ok (), r, n) =>
      .sync (Cells.addFetched n) fun _ =>
      match _ha : r.advance S with
      | (.error e, _) => .ret (.error e)
      | (.ok (), r') => downloadLoop r'
termination_by retrieval.remaining S
decreasing_by exact Retrieval.remaining_lt _hc fetched.2 _hs _ha

/-- `download` with its fetches as requests. -/
def downloadFrom (address : XorName) : Prog Fetches Cells (Except String Bytes) :=
  .sync Cells.resetFetched fun _ =>
  bindE (ask (S := Fetches) (.one address)) fun mapBytes =>
  .sync (Cells.addFetched 1) fun _ =>
  bindE (.ret (Retrieval.start S address mapBytes)) fun retrieval =>
  downloadLoop S retrieval

variable (C : Crates)

/-- The fetches of a download: each is a `get_direct`, and those of a round run
    concurrently. -/
def WasmClient.fetches (self : WasmClient) : ∀ e : FetchReq, Prog Net Cells (Fetches.Ans e)
  | .one address => self.getDirect C address
  | .all addresses => joined (self.getDirect C) addresses

/-- Download, verify, and decrypt a public file by its data-map address. -/
def WasmClient.download (self : WasmClient) (addressHex : String) :
    Prog Net Cells (Except String Bytes) :=
  bindE (.ret (parseAddress C addressHex)) fun address =>
  (downloadFrom S address).handle (self.fetches C)

/-! ## The loop -/

section

/-- The result is `v`, or, if fetches may fail (`F`), an error. -/
def Yields {α : Type} (F : Prop) (v result : Except String α) : Prop :=
  result = v ∨ F ∧ ∃ e, result = .error e

/-- Only chunks that satisfy `W` are asked for. -/
def FetchReq.Within (W : XorName → Prop) : FetchReq → Prop
  | .one address => W address
  | .all addresses => ∀ a ∈ addresses, W a

/-- Fetches of chunks in `W` that are answered with the bytes `serve` says. -/
def fetchContract (W : XorName → Prop) (F : Prop) (serve : XorName → Bytes) :
    Contract Fetches Cells where
  inv _ := True
  asks := FetchReq.Within W
  gets
    | .one a, result => Yields F (.ok (serve a)) result
    | .all as, results => List.Forall₂ (fun a result => Yields F (.ok (serve a)) result) as results.1

variable {S} {W : XorName → Prop} {F : Prop} {serve : XorName → Bytes} {map₀ : DataMap}

/-- The chunks of a map and of its root map are in `W`. -/
def Covered (S : SelfEncryption DataMap) (W : XorName → Prop) (serve : XorName → Bytes)
    (map : DataMap) : Prop :=
  (∀ a ∈ S.infos map, W a) ∧
    ∀ root, Retrieval.resolve S (chunkOf S serve) map = .ok root → ∀ a ∈ S.infos root, W a

/-- Chunks in `W` verify, unless fetches may fail anyway. -/
def Verifies (S : SelfEncryption DataMap) (W : XorName → Prop) (F : Prop)
    (serve : XorName → Bytes) : Prop :=
  F ∨ ∀ a, W a → ∃ chunk, S.verifyChunk a (serve a) = .ok chunk

theorem Retrieval.Fits.required_within {r : Retrieval DataMap} (h : r.Fits S (chunkOf S serve) map₀)
    (hW : Covered S W serve map₀) {a : XorName} (ha : a ∈ r.requiredAddresses S) : W a := by
  rw [Retrieval.mem_requiredAddresses] at ha
  by_cases hr : r.rootResolved = true
  · exact hW.2 _ (h.root hr) a ha.1
  · obtain ⟨hmap, -⟩ := h.child (by simpa using hr)
    exact hW.1 a (hmap ▸ ha.1)

/-- **The rounds of a download**: whatever the order in which the chunks of a round
    come in, the loop ends with the outcome of the first map. -/
theorem downloadLoop_safe (hW : Covered S W serve map₀) (hV : Verifies S W F serve)
    (r : Retrieval DataMap) (h : r.Fits S (chunkOf S serve) map₀) :
    (downloadLoop S r).Safe (fetchContract W F serve)
      (Yields F (Retrieval.outcome S (chunkOf S serve) map₀)) := by
  -- induction on the number of rounds left
  induction hm : r.remaining S using Nat.strong_induction_on generalizing r with
  | _ m ih =>
    rw [downloadLoop]
    split
    · rename_i hc
      exact Or.inl (h.finish hc)
    rename_i hc
    refine ⟨fun a ha => h.required_within hW ha, fun fetched hf => ?_⟩
    have hall : ∀ a result, (a, result) ∈ (r.requiredAddresses S).zip fetched.1 →
        Yields F (.ok (serve a)) result :=
      fun a result hm => (List.forall₂_iff_zip.1 hf).2 hm
    have hverify : ∀ a bytes c, (a, .ok bytes) ∈ (r.requiredAddresses S).zip fetched.1 →
        S.verifyChunk a bytes = .ok c → c = chunkOf S serve a := by
      intro a bytes c hm hc
      rcases hall a _ hm with hb | ⟨-, e, he⟩
      · cases hb
        rw [chunkOf, hc]
      · cases he
    dsimp only
    split
    · rename_i e r₁ n hs
      refine fun s _ => ⟨trivial, ?_⟩
      obtain ⟨a, result, hm, hbad⟩ := Retrieval.supplyAll_error hs
      rcases hall a result hm with rfl | ⟨hF, -⟩
      · rcases hV with hF | hV
        · exact Or.inr ⟨hF, e, rfl⟩
        · obtain ⟨c, hc⟩ := hV a (h.required_within hW (List.of_mem_zip hm).1)
          exact absurd hc (hbad _ c rfl)
      · exact Or.inr ⟨hF, e, rfl⟩
    · rename_i r₁ n hs
      refine fun s _ => ⟨trivial, ?_⟩
      obtain ⟨h₁, hn⟩ := h.supplyAll fetched.2 hverify hs
      split
      · rename_i e r₂ ha
        exact Or.inl (by rw [Retrieval.outcome, h₁.advance_error hn ha])
      · rename_i r₂ ha
        exact ih _ (hm ▸ Retrieval.remaining_lt hc fetched.2 hs ha) r₂ (h₁.advance_ok hn ha) rfl

/-- **A download** asks only for chunks in `W`, and ends with what its address
    stands for. -/
theorem downloadFrom_safe {address : XorName} (haddr : W address)
    (hW : ∀ map, S.fromSlice (serve address) = .ok map → Covered S W serve map)
    (hV : Verifies S W F serve) :
    (downloadFrom S address).Safe (fetchContract W F serve)
      (Yields F (downloadOutcome S serve address)) := by
  refine fun s _ => ⟨trivial, haddr, fun mapBytes hmap => ?_⟩
  cases mapBytes with
  | error e =>
    rcases hmap with hb | ⟨hF, -⟩
    · cases hb
    · exact Or.inr ⟨hF, e, rfl⟩
  | ok mapBytes =>
    obtain rfl : mapBytes = serve address := by
      rcases hmap with hb | ⟨-, e, he⟩
      · exact Except.ok.inj hb
      · cases he
    refine fun s _ => ⟨trivial, ?_⟩
    show (bindE (.ret (Retrieval.start S address (serve address))) _).Safe _ _
    cases hs : Retrieval.start S address (serve address) with
    | error e => exact Or.inl (by rw [downloadOutcome, hs])
    | ok r =>
      obtain ⟨hfrom, hfits⟩ : S.fromSlice (serve address) = .ok r.map ∧
          r.Fits S (chunkOf S serve) r.map := Retrieval.start_fits hs
      rw [downloadOutcome, hs]
      exact downloadLoop_safe (hW _ hfrom) hV r hfits

/-- **A download over the network**: if each `get_direct` ends with the bytes the
    address stands for, so does the download. -/
theorem download_safe {self : WasmClient} {K : Contract Net Cells} (hinv : ∀ s, K.inv s)
    (hget : ∀ a, W a → (self.getDirect C a).Safe K (Yields F (.ok (serve a))))
    {addressHex : String} {address : XorName} (hp : parseAddress C addressHex = .ok address)
    (haddr : W address)
    (hW : ∀ map, S.fromSlice (serve address) = .ok map → Covered S W serve map)
    (hV : Verifies S W F serve) :
    (self.download S C addressHex).Safe K (Yields F (downloadOutcome S serve address)) := by
  rw [WasmClient.download, hp]
  refine Safe.handle (D := fetchContract W F serve) (funext fun s => ?_)
    (downloadFrom_safe haddr hW hV) fun e he => ?_
  · exact propext ⟨fun _ => hinv s, fun _ => trivial⟩
  · cases e with
    | one a => exact hget a he
    | all as => exact Safe.joined fun a ha => hget a (he a ha)

end

section
variable {S C} {W : XorName → Prop} {F : Prop} {serve : XorName → Bytes}

/-- The chunk contents that a node delivered in a run. -/
def delivered (C : Crates) (tr : List (Ev Net)) : Set Bytes :=
  {content | ∃ ev ∈ tr, Delivers C content ev}

/-! ## Downloads from an honest network -/

variable {peers : List PeerConnectInfo}

theorem download_honest {self : WasmClient}
    (hpeers : (DiscoveryMessage.put ⟨1, .closestPeersResponse ⟨peers⟩⟩).length < 2 ^ 32)
    (hp : honestPeer ∈ peers) (hs : ∀ a, first32 (serve a) = a)
    (hl : ∀ a, (serve a).length ≤ 2 ^ 22) (hV : ∀ a, ∃ c, S.verifyChunk a (serve a) = .ok c)
    {addressHex : String} {address : XorName}
    (ha : parseAddress .transparent addressHex = .ok address) :
    (self.download S .transparent addressHex).Safe (.answers (Honest peers (serving serve)))
      fun result => result = downloadOutcome S serve address := by
  have hget : ∀ a, True → (self.getDirect .transparent a).Safe
      (.answers (Honest peers (serving serve))) (Yields False (.ok (serve a))) :=
    fun a _ => (getDirect_honest hpeers hp (hs a) (hl a) rfl).mono fun _ h => Or.inl h
  have hsafe := download_safe .transparent (fun _ => trivial) hget ha trivial
    (fun _ _ => ⟨fun _ _ => trivial, fun _ _ _ _ => trivial⟩) (Or.inr fun a _ => hV a)
  exact hsafe.mono fun _ h => h.resolve_right fun h => h.1

/-- What an honest network delivers is what it serves. -/
theorem delivered_honest (hl : ∀ a, (serve a).length ≤ 2 ^ 22) {tr : List (Ev Net)}
    (h : ∀ ev ∈ tr, Honest peers (serving serve) ev) :
    delivered .transparent tr ⊆ Set.range serve := by
  rintro content ⟨ev, hev, conn, payload, plaintext, id, address, rfl, hd⟩
  have hans : Except.ok plaintext = honest peers (serving serve) (.roundTrip conn protoChunk payload) :=
    h _ hev
  rw [honest, if_neg (by decide)] at hans
  cases hm : ChunkMessage.decode .transparent payload with
  | error e =>
    rw [hm] at hans
    cases hans
  | ok m =>
    rw [hm] at hans
    cases hans
    rw [ChunkMessage.decode_put _ (length_serving_le hl _ _)] at hd
    obtain ⟨-, hbody⟩ := ChunkMessage.mk.inj (Except.ok.inj hd)
    unfold serving at hbody
    split at hbody
    · cases hbody
      exact ⟨_, rfl⟩
    · cases hbody

/-! ## Two downloads -/

open Classical in
/-- What an address stands for when the contents `known` have no collision. -/
noncomputable def meant (C : Crates) (known : Set Bytes) (address : XorName) : Bytes :=
  if h : ∃ content ∈ known, C.blake3 content = address then h.choose else []

theorem meant_blake3 {known : Set Bytes} (hinj : Set.InjOn C.blake3 known) {content : Bytes}
    (h : content ∈ known) : meant C known (C.blake3 content) = content := by
  have hex : ∃ c ∈ known, C.blake3 c = C.blake3 content := ⟨content, h, rfl⟩
  rw [meant, dif_pos hex]
  exact hinj hex.choose_spec.1 h hex.choose_spec.2

/-- Where the delivered contents have no collision, a download ends with what its
    address stands for or with an error, whatever else the nodes do. -/
theorem download_of_run {known : Set Bytes} (hinj : Set.InjOn C.blake3 known) {self : WasmClient}
    {addressHex : String} {address : XorName} (hp : parseAddress C addressHex = .ok address)
    {I : Cells → Cells → Prop} {s s' : Cells} {tr : List (Ev Net)} {result : Except String Bytes}
    (hr : Run I (self.download S C addressHex) s tr (some result) s')
    (hknown : delivered C tr ⊆ known) :
    Yields True (downloadOutcome S (meant C known) address) result := by
  have hget : ∀ a, True → (self.getDirect C a).Safe (.answers (· ∈ tr))
      (Yields True (.ok (meant C known a))) := by
    intro a _
    have hfetch := getDirect_answers C (E := (· ∈ tr)) self a
    refine Safe.mono (fun result hres => ?_) hfetch
    cases result with
    | error e => exact Or.inr ⟨trivial, e, rfl⟩
    | ok content =>
      obtain ⟨rfl, hdel⟩ := hres content rfl
      exact Or.inl (by rw [meant_blake3 hinj (hknown hdel)])
  have hsafe : (self.download S C addressHex).Safe (.answers (· ∈ tr))
      (Yields True (downloadOutcome S (meant C known) address)) :=
    download_safe C (fun _ => trivial) hget hp trivial
      (fun _ _ => ⟨fun _ _ => trivial, fun _ _ _ _ => trivial⟩) (Or.inl trivial)
  exact hsafe.run_answers hr fun _ h => h

/-- **A node can refuse but cannot lie**: two downloads of one address, each with
    answers of its own, return the same bytes if they return any. -/
theorem download_unique {self₁ self₂ : WasmClient} {addressHex₁ addressHex₂ : String}
    {address : XorName} (hp₁ : parseAddress C addressHex₁ = .ok address)
    (hp₂ : parseAddress C addressHex₂ = .ok address) {I₁ I₂ : Cells → Cells → Prop}
    {s₁ s₁' s₂ s₂' : Cells} {tr₁ tr₂ : List (Ev Net)} {data₁ data₂ : Bytes}
    (hr₁ : Run I₁ (self₁.download S C addressHex₁) s₁ tr₁ (some (.ok data₁)) s₁')
    (hr₂ : Run I₂ (self₂.download S C addressHex₂) s₂ tr₂ (some (.ok data₂)) s₂')
    (hinj : Set.InjOn C.blake3 (delivered C tr₁ ∪ delivered C tr₂)) : data₁ = data₂ := by
  have h₁ := download_of_run hinj hp₁ hr₁ Set.subset_union_left
  have h₂ := download_of_run hinj hp₂ hr₂ Set.subset_union_right
  rcases h₁ with h₁ | ⟨-, e, he⟩
  · rcases h₂ with h₂ | ⟨-, e, he⟩
    · exact Except.ok.inj (h₁.trans h₂.symm)
    · cases he
  · cases he

theorem length_le_of_serveMap {map : List XorName} (h : map.length < 2 ^ 16) (address : XorName) :
    (serveMap map address).length ≤ 2 ^ 22 := by
  have := length_serveMap_le map address
  omega

theorem exists_download (peers : List PeerConnectInfo) (hp : honestPeer ∈ peers)
    (hpeers : (DiscoveryMessage.put ⟨1, .closestPeersResponse ⟨peers⟩⟩).length < 2 ^ 32)
    (map : List XorName) (hl : map.length < 2 ^ 16) :
    ∃ tr result s', Run (Any Cells) (honestClient.download .transparent .transparent
        (hexEncode (mapAddress map).1)) .empty tr (some result) s' ∧
      (∀ ev ∈ tr, Honest peers (serving (serveMap map)) ev) ∧
      result = downloadOutcome .transparent (serveMap map) (mapAddress map) := by
  refine (download_honest hpeers hp (first32_serveMap map) (length_le_of_serveMap hl) (fun a => ?_)
    (parseAddress_hexEncode _ _)).exists_run (Honest.total _ _) .empty
  exact ⟨⟨serveMap map a⟩, if_pos (first32_serveMap map a)⟩

/-- Of two networks that serve the file `[a]` the second lists a peer that cannot be
    reached. -/
theorem download_unique_honest :
    ∃ tr₁ s₁ tr₂ s₂ data₁ data₂,
      Run (Any Cells) (honestClient.download .transparent .transparent
        (hexEncode (mapAddress [zeros 32]).1)) .empty tr₁ (some (.ok data₁)) s₁ ∧
      Run (Any Cells) (honestClient.download .transparent .transparent
        (hexEncode (mapAddress [zeros 32]).1)) .empty tr₂ (some (.ok data₂)) s₂ ∧
      data₁ = data₂ := by
  have hdata : downloadOutcome .transparent (serveMap [zeros 32]) (mapAddress [zeros 32]) =
      .ok ([chunkOf .transparent (serveMap [zeros 32]) (zeros 32)].flatMap EncryptedChunk.content) := by
    rw [downloadOutcome_serveMap (by simp)]
    rfl
  obtain ⟨tr₁, r₁, s₁, hr₁, hE₁, rfl⟩ := exists_download [honestPeer] (by simp)
    (length_peers_lt (by decide) (by simp)) [zeros 32] (by simp)
  obtain ⟨tr₂, r₂, s₂, hr₂, hE₂, rfl⟩ := exists_download
    [⟨first32 [1], "", 0, zeros 32⟩, honestPeer] (by simp)
    (length_peers_lt (by decide) (by simp)) [zeros 32] (by simp)
  rw [hdata] at hr₁ hr₂
  refine ⟨tr₁, s₁, tr₂, s₂, _, _, hr₁, hr₂, download_unique (parseAddress_hexEncode _ _)
    (parseAddress_hexEncode _ _) hr₁ hr₂ (Set.InjOn.mono (Set.union_subset
      (delivered_honest (length_le_of_serveMap (by simp)) hE₁)
      (delivered_honest (length_le_of_serveMap (by simp)) hE₂)) ?_)⟩
  rintro _ ⟨a, rfl⟩ _ ⟨b, rfl⟩ h
  have h : a = b := by simpa [Crates.transparent, first32_serveMap] using h
  rw [h]

end

/-! ## Several levels -/

/-- `get_root_data_map` follows child maps level by level until it meets a map that
    is none; `step` decrypts the chunks of one level to the next map. -/
structure FollowsLevels (S : SelfEncryption DataMap)
    (step : DataMap → List Bytes → Except String DataMap) : Prop where
  root : ∀ map fetch, S.isChild map = false → S.getRootDataMap map fetch = .ok map
  child : ∀ map fetch contents next, S.isChild map = true →
    (S.infos map).mapM fetch = .ok contents → step map contents = .ok next →
    S.getRootDataMap map fetch = S.getRootDataMap next fetch
  fails : ∀ map fetch a e, S.isChild map = true → a ∈ S.infos map → fetch a = .error e →
    ∃ e', S.getRootDataMap map fetch = .error e'

/-- A file with `d` wrapper levels: the map stored at `address` is `maps 0`, the
    chunks of each map decrypt to the next one, and those of `maps d` to the
    plaintext. -/
structure Levels (S : SelfEncryption DataMap)
    (step : DataMap → List Bytes → Except String DataMap) (serve : XorName → Bytes)
    (address : XorName) (maps : ℕ → DataMap) (d : ℕ) (plaintext : Bytes) : Prop where
  first : S.fromSlice (serve address) = .ok (maps 0)
  child : ∀ i < d, S.isChild (maps i) = true
  next : ∀ i < d, step (maps i) ((S.infos (maps i)).map serve) = .ok (maps (i + 1))
  last : S.isChild (maps d) = false
  file : S.decrypt (maps d) ((S.infos (maps d)).map fun a => ⟨serve a⟩) = .ok plaintext

/-- The chunks of a file with `d` wrapper levels. -/
def Mentioned (S : SelfEncryption DataMap) (address : XorName) (maps : ℕ → DataMap) (d : ℕ)
    (a : XorName) : Prop := a = address ∨ ∃ i ≤ d, a ∈ S.infos (maps i)

section
variable {S C} {step : DataMap → List Bytes → Except String DataMap} {serve : XorName → Bytes}
  {address : XorName} {maps : ℕ → DataMap} {d : ℕ} {plaintext : Bytes}

/-- While every level needs chunks of the first map only, its root is the root of
    the next level. -/
theorem getRootDataMap_levels (hS : FollowsLevels S step)
    (hL : Levels S step serve address maps d plaintext) {j : ℕ} (hj : j ≤ d)
    (hm : ∀ i < j, ∀ a ∈ S.infos (maps i), a ∈ S.infos (maps 0)) :
    S.getRootDataMap (maps 0) (Retrieval.fetchHeld S (fun a => ⟨serve a⟩) (S.infos (maps 0))) =
      S.getRootDataMap (maps j)
        (Retrieval.fetchHeld S (fun a => ⟨serve a⟩) (S.infos (maps 0))) := by
  induction j with
  | zero => rfl
  | succ j ih =>
    rw [ih (by omega) fun i hi => hm i (by omega)]
    refine hS.child _ _ _ _ (hL.child j hj) ?_ (hL.next j hj)
    exact Retrieval.mapM_ok fun a ha => Retrieval.fetchHeld_of_mem (hm j (by omega) a ha)

/-- The root map is found if and only if each level between the first and the last
    needs chunks of the first map only. -/
theorem resolve_levels (hS : FollowsLevels S step)
    (hL : Levels S step serve address maps d plaintext) :
    ((∀ i, 0 < i → i < d → ∀ a ∈ S.infos (maps i), a ∈ S.infos (maps 0)) ∧
      Retrieval.resolve S (fun a => ⟨serve a⟩) (maps 0) = .ok (maps d)) ∨
    (¬ (∀ i, 0 < i → i < d → ∀ a ∈ S.infos (maps i), a ∈ S.infos (maps 0)) ∧
      ∃ e, Retrieval.resolve S (fun a => ⟨serve a⟩) (maps 0) = .error e) := by
  by_cases hd : d = 0
  · subst hd
    refine Or.inl ⟨fun i _ hi => absurd hi (by omega), ?_⟩
    rw [Retrieval.resolve, if_neg (by simp [hL.last])]
  rw [Retrieval.resolve, if_pos (hL.child 0 (by omega))]
  by_cases h : ∀ i, 0 < i → i < d → ∀ a ∈ S.infos (maps i), a ∈ S.infos (maps 0)
  · have hm : ∀ i < d, ∀ a ∈ S.infos (maps i), a ∈ S.infos (maps 0) := by
      intro i hi
      rcases Nat.eq_zero_or_pos i with rfl | h0
      · exact fun a ha => ha
      · exact h i h0 hi
    refine Or.inl ⟨h, ?_⟩
    rw [getRootDataMap_levels hS hL le_rfl hm, hS.root _ _ hL.last]
  · refine Or.inr ⟨h, ?_⟩
    -- the first level that needs a chunk of its own
    obtain ⟨i, hi, hmin⟩ : ∃ i, (i < d ∧ ∃ a ∈ S.infos (maps i), a ∉ S.infos (maps 0)) ∧
        ∀ k < i, ¬ (k < d ∧ ∃ a ∈ S.infos (maps k), a ∉ S.infos (maps 0)) := by
      classical
      have hex : ∃ i, i < d ∧ ∃ a ∈ S.infos (maps i), a ∉ S.infos (maps 0) := by
        by_contra hn
        refine h fun i _ hi a ha => ?_
        by_contra hna
        exact hn ⟨i, hi, a, ha, hna⟩
      exact ⟨Nat.find hex, Nat.find_spec hex, fun k hk => Nat.find_min hex hk⟩
    obtain ⟨hid, a, ha, hna⟩ := hi
    have hm : ∀ k < i, ∀ a ∈ S.infos (maps k), a ∈ S.infos (maps 0) := by
      intro k hk a ha
      by_contra hna
      exact hmin k hk ⟨by omega, a, ha, hna⟩
    rw [getRootDataMap_levels hS hL hid.le hm]
    obtain ⟨e, he⟩ := hS.fails (maps i) _ a _ (hL.child i hid) ha
      (Retrieval.fetchHeld_of_not_mem hna)
    exact ⟨_, by rw [he]⟩

/-- The file at the address: its plaintext, if each level between the first and the
    last needs chunks of the first map only, and an error otherwise. -/
theorem downloadOutcome_levels (hS : FollowsLevels S step)
    (hv : ∀ a bytes, C.blake3 bytes = a → S.verifyChunk a bytes = .ok ⟨bytes⟩)
    (hL : Levels S step serve address maps d plaintext)
    (hc : ∀ a, Mentioned S address maps d a → C.blake3 (serve a) = a) :
    Covered S (Mentioned S address maps d) serve (maps 0) ∧
      (((∀ i, 0 < i → i < d → ∀ a ∈ S.infos (maps i), a ∈ S.infos (maps 0)) ∧
        downloadOutcome S serve address = .ok plaintext) ∨
      (¬ (∀ i, 0 < i → i < d → ∀ a ∈ S.infos (maps i), a ∈ S.infos (maps 0)) ∧
        ∃ e, downloadOutcome S serve address = .error e)) := by
  have hchunk : ∀ i ≤ d, ∀ a ∈ S.infos (maps i), chunkOf S serve a = ⟨serve a⟩ := by
    intro i hi a ha
    rw [chunkOf, hv a (serve a) (hc a (Or.inr ⟨i, hi, ha⟩))]
  have hres := Retrieval.resolve_congr (hchunk 0 (Nat.zero_le d))
  have hout : downloadOutcome S serve address = Retrieval.outcome S (chunkOf S serve) (maps 0) := by
    rw [downloadOutcome, Retrieval.start, hv _ _ (hc address (Or.inl rfl)), hL.first]
  rw [hout, Retrieval.outcome, hres]
  rcases resolve_levels hS hL with ⟨h, hroot⟩ | ⟨h, e, herr⟩
  · refine ⟨⟨fun a ha => Or.inr ⟨0, Nat.zero_le d, ha⟩, fun root hr a ha => ?_⟩, Or.inl ⟨h, ?_⟩⟩
    · rw [hres, hroot] at hr
      cases hr
      exact Or.inr ⟨d, le_rfl, ha⟩
    · rw [hroot]
      dsimp only
      rw [List.map_congr_left (hchunk d le_rfl), hL.file]
  · refine ⟨⟨fun a ha => Or.inr ⟨0, Nat.zero_le d, ha⟩, fun root hr => ?_⟩, Or.inr ⟨h, e, ?_⟩⟩
    · rw [hres, herr] at hr
      cases hr
    · rw [herr]

/-- **Data maps of several levels**: in a network that serves every chunk of the file
    the download ends with the plaintext if and only if each level between the
    first and the last needs chunks of the first map only. -/
theorem download_levels (hS : FollowsLevels S step)
    (hv : ∀ a bytes, C.blake3 bytes = a → S.verifyChunk a bytes = .ok ⟨bytes⟩)
    (hL : Levels S step serve address maps d plaintext)
    (hc : ∀ a, Mentioned S address maps d a → C.blake3 (serve a) = a) {self : WasmClient}
    {E : Ev Net → Prop} (hE : ∀ e, ∃ r, E ⟨e, r⟩)
    (hserve : ∀ a, Mentioned S address maps d a →
      (self.getDirect C a).Safe (.answers E) fun r => r = .ok (serve a))
    {addressHex : String} (hp : parseAddress C addressHex = .ok address) :
    (∀ s tr result s', Run (Any Cells) (self.download S C addressHex) s tr (some result) s' →
      (∀ ev ∈ tr, E ev) → result = .ok plaintext) ↔
    ∀ i, 0 < i → i < d → ∀ a ∈ S.infos (maps i), a ∈ S.infos (maps 0) := by
  obtain ⟨hcov, hout⟩ := downloadOutcome_levels hS hv hL hc
  have hsafe : (self.download S C addressHex).Safe (.answers E)
      (Yields False (downloadOutcome S serve address)) := by
    refine download_safe C (fun _ => trivial) (fun a ha => (hserve a ha).mono fun r hr => Or.inl hr)
      hp (Or.inl rfl) (fun map hmap => ?_) (Or.inr fun a ha => ⟨_, hv a _ (hc a ha)⟩)
    rw [hL.first] at hmap
    cases hmap
    exact hcov
  have hiff : downloadOutcome S serve address = .ok plaintext ↔
      ∀ i, 0 < i → i < d → ∀ a ∈ S.infos (maps i), a ∈ S.infos (maps 0) := by
    rcases hout with ⟨h, ho⟩ | ⟨h, e, he⟩
    · exact iff_of_true ho h
    · exact iff_of_false (by rw [he]; rintro ⟨⟩) h
  rw [← hiff]
  constructor
  · intro h
    obtain ⟨tr, result, s', hr, hev, hy⟩ := hsafe.exists_run hE .empty
    rw [← hy.resolve_right fun h => h.1]
    exact h _ tr result s' hr hev
  · intro h s tr result s' hr hev
    rw [(hsafe.run_answers hr hev).resolve_right fun h => h.1, h]

/-! ## The transparent instance -/

theorem SelfEncryption.transparent_followsLevels :
    FollowsLevels .transparent fun map _ => .ok map.tail where
  root map fetch h := by
    rcases map with _ | ⟨a, _ | ⟨b, map⟩⟩
    · rfl
    · rfl
    · cases h
  child map fetch contents next h hf hn := by
    rcases map with _ | ⟨a, _ | ⟨b, map⟩⟩
    · cases h
    · cases h
    · cases hn
      cases ha : fetch a with
      | ok c => simp [SelfEncryption.transparent, SelfEncryption.levels, ha]
      | error e =>
        have hf : [a].mapM fetch = .ok contents := hf
        rw [List.mapM_cons, ha] at hf
        cases hf
  fails map fetch a e h hm ha := by
    rcases map with _ | ⟨b, _ | ⟨c, map⟩⟩
    · cases h
    · cases h
    · obtain rfl : a = b := List.mem_singleton.1 hm
      exact ⟨e, by simp [SelfEncryption.transparent, SelfEncryption.levels, ha]⟩

theorem SelfEncryption.transparent_verifyChunk (a : XorName) (bytes : Bytes)
    (h : Crates.transparent.blake3 bytes = a) :
    SelfEncryption.transparent.verifyChunk a bytes = .ok ⟨bytes⟩ := if_pos h

/-- A map of the instance is a file with as many wrapper levels as it has further
    elements. -/
theorem serveMap_levels {map : List XorName} {d : ℕ} (h : map.length = d + 1) (hd : d < 2 ^ 31) :
    Levels .transparent (fun map _ => .ok map.tail) (serveMap map) (mapAddress map)
      (fun i => map.drop i) d (((map.drop d).take 1).flatMap (serveMap map)) where
  first := by
    rw [serveMap, if_pos rfl]
    exact SelfEncryption.transparent_fromSlice (by omega)
  child i hi := by simp [SelfEncryption.transparent]; omega
  next i hi := by simp
  last := by simp [SelfEncryption.transparent]; omega
  file := by
    show Except.ok _ = _
    rw [List.flatMap_map]
    rfl

/-- A file with two wrapper levels, each of a chunk of its own. -/
def threeLevels : List XorName := [Arr.replicate 32 1, Arr.replicate 32 2, Arr.replicate 32 3]

theorem getDirect_threeLevels (a : XorName) :
    (honestClient.getDirect .transparent a).Safe
      (.answers (Honest [honestPeer] (serving (serveMap threeLevels))))
      fun r => r = .ok (serveMap threeLevels a) :=
  getDirect_honest (length_peers_lt (by decide) (by simp)) (by simp)
    (first32_serveMap _ a) (length_le_of_serveMap (by decide) a) rfl

theorem download_levels_threeLevels :
    (∀ s tr result s', Run (Any Cells) (honestClient.download .transparent .transparent
        (hexEncode (mapAddress threeLevels).1)) s tr (some result) s' →
      (∀ ev ∈ tr, Honest [honestPeer] (serving (serveMap threeLevels)) ev) →
        result = .ok (((threeLevels.drop 2).take 1).flatMap (serveMap threeLevels))) ↔
    ∀ i, 0 < i → i < 2 → ∀ a ∈ (threeLevels.drop i).take 1, a ∈ (threeLevels.drop 0).take 1 :=
  download_levels SelfEncryption.transparent_followsLevels SelfEncryption.transparent_verifyChunk
    (serveMap_levels rfl (by simp)) (fun a _ => first32_serveMap _ a) (Honest.total _ _)
    (fun a _ => getDirect_threeLevels a) (parseAddress_hexEncode _ _)

/-- **Two levels are not resolved**: every chunk of the file is served, yet its
    download fails. -/
theorem threeLevels_fails :
    FollowsLevels .transparent (fun map _ => .ok map.tail) ∧
    Levels .transparent (fun map _ => .ok map.tail) (serveMap threeLevels) (mapAddress threeLevels)
      (fun i => threeLevels.drop i) 2 (((threeLevels.drop 2).take 1).flatMap (serveMap threeLevels)) ∧
    (∀ a, (honestClient.getDirect .transparent a).Safe
      (.answers (Honest [honestPeer] (serving (serveMap threeLevels))))
      fun r => r = .ok (serveMap threeLevels a)) ∧
    ∃ tr e s', Run (Any Cells) (honestClient.download .transparent .transparent
        (hexEncode (mapAddress threeLevels).1)) .empty tr (some (.error e)) s' ∧
      ∀ ev ∈ tr, Honest [honestPeer] (serving (serveMap threeLevels)) ev := by
  refine ⟨SelfEncryption.transparent_followsLevels, serveMap_levels rfl (by decide),
    getDirect_threeLevels, ?_⟩
  obtain ⟨tr, result, s', hr, hE, rfl⟩ := exists_download [honestPeer] (by simp)
    (length_peers_lt (by decide) (by simp)) threeLevels (by decide)
  have hnot : ¬ (∀ i, 0 < i → i < 2 → ∀ a ∈ (threeLevels.drop i).take 1,
      a ∈ (threeLevels.drop 0).take 1) := by
    intro h
    have := h 1 (by decide) (by decide) (Arr.replicate 32 2) (by decide)
    revert this
    decide
  have hL : Levels .transparent (fun map _ => .ok map.tail) (serveMap threeLevels)
      (mapAddress threeLevels) (fun i => threeLevels.drop i) 2 _ := serveMap_levels rfl (by decide)
  obtain ⟨-, ⟨h, -⟩ | ⟨-, e, he⟩⟩ := downloadOutcome_levels
    SelfEncryption.transparent_followsLevels SelfEncryption.transparent_verifyChunk hL
    fun a _ => first32_serveMap _ a
  · exact absurd h hnot
  · rw [he] at hr
    exact ⟨tr, e, s', hr, hE⟩

end

end AntClient
