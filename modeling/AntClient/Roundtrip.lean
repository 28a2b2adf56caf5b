/-
  Uploads and downloads together (`lib.rs`): what was uploaded is downloaded.

  `Undoes` is what the self-encryption crate promises about its two directions.  The
  items of an upload are the levels that a download follows, so that its outcome is the
  data, and a download asks for these items only.

  * `upload_download`: an upload, then a download of the address that it returned.
-/
import AntClient.Fetch
import AntClient.Upload

namespace AntClient

open Async Prog

variable {DataMap : Type} {S : SelfEncryption DataMap} {C : Crates}
  {step : DataMap → List Bytes → Except String DataMap} {client : WasmClient}

/-! ## What the crate undoes -/

section
variable (S C)

/-- The crate undoes what it does: the root map decrypts to the data, `get_root_data_map`
    follows the levels, and a data map is read back as it was written. -/
structure SelfEncryption.Undoes (step : DataMap → List Bytes → Except String DataMap) : Prop where
  encrypt : ∀ data map chunks, S.encrypt data = .ok (map, chunks) →
    ∃ levels root contents, MapChain S step (Held C chunks) map levels root ∧
      S.isChild root = false ∧ List.Forall₂ (Held C chunks) (S.infos root) contents ∧
      S.decrypt root (contents.map EncryptedChunk.mk) = .ok data
  shrink : ∀ data map chunks calls shrunk, S.encrypt data = .ok (map, chunks) →
    S.shrinkDataMap map = .ok (calls, shrunk) →
    (∃ levels, MapChain S step (fun a bytes => (a, bytes) ∈ calls) shrunk levels map) ∧
      ∀ x ∈ calls, C.blake3 x.2 = x.1
  follows : FollowsLevels S step
  verifying : S.Verifying C
  serde : ∀ map bytes, S.toVec map = .ok bytes → S.fromSlice bytes = .ok map

/-- The data map of the encrypted data is at most one wrapper level deep. -/
def AtMostOneLevel (step : DataMap → List Bytes → Except String DataMap) (data : Bytes) : Prop :=
  ∀ chunks mapAddress mapBytes shrunk levels root,
    uploadItems S C data = .ok (chunks ++ [(mapAddress, mapBytes)], mapAddress) →
    Uploads step S C chunks mapBytes shrunk levels root → levels.length ≤ 1

/-- The requests of a fetch of `address`. -/
inductive NetReq.FetchOf (address : XorName) : NetReq → Prop
  | opens {e : NetReq} : e.Opens → FetchOf address e
  | nextSeq {conn} : FetchOf address (.nextSeq conn)
  | discover {conn id} : FetchOf address (.roundTrip conn protoDiscovery
      (DiscoveryMessage.put ⟨id, .closestPeersRequest ⟨address⟩⟩))
  | get {conn id} : FetchOf address (.roundTrip conn protoChunk
      (ChunkMessage.put ⟨id, .getRequest ⟨address⟩⟩))

end

theorem forall₂_serve {held : XorName → Bytes → Prop} {serve : XorName → Bytes}
    (hs : ∀ a b, held a b → serve a = b) {as : List XorName} {contents : List Bytes}
    (h : List.Forall₂ held as contents) : contents = as.map serve := by
  induction h with
  | nil => rfl
  | cons hb _ ih => rw [List.map_cons, hs _ _ hb, ih]

/-- The maps of a chain, by level. -/
theorem MapChain.maps {held : XorName → Bytes → Prop} {serve : XorName → Bytes}
    (hs : ∀ a b, held a b → serve a = b) {map root : DataMap} {levels : List DataMap}
    (h : MapChain S step held map levels root) : (levels[0]?).getD root = map ∧
      ∀ i < levels.length, S.isChild ((levels[i]?).getD root) = true ∧
        step ((levels[i]?).getD root) ((S.infos ((levels[i]?).getD root)).map serve) =
          .ok ((levels[i + 1]?).getD root) := by
  induction h with
  | here => simp
  | level hch hf hstep _ ih =>
    refine ⟨rfl, fun i hi => ?_⟩
    cases i with
    | zero =>
      rw [forall₂_serve hs hf] at hstep
      have hnext := ih.1
      simp only [List.getElem?_cons_zero, List.getElem?_cons_succ, Option.getD_some]
      exact ⟨hch, hnext ▸ hstep⟩
    | succ i =>
      simp only [List.getElem?_cons_succ]
      exact ih.2 i (by simpa using hi)

/-- A fetch asks for its address only. -/
theorem getDirect_fetchOf {K : Contract Net Cells} {address : XorName} (hinv : ∀ s, K.inv s)
    (ha : ∀ e : NetReq, e.FetchOf address → K.asks e) (self : WasmClient) :
    (self.getDirect C address).Safe K fun _ => True := by
  have hconn : ∀ peer, (connectionFor C peer).Safe K fun _ => True := fun peer =>
    (connectionFor_safe C (U := fun _ _ => True) (E := fun _ => True) (fun _ _ _ _ _ => trivial)
      (fun _ _ _ _ _ => hinv _) (fun _ _ _ _ => trivial) (fun e he => ha e (.opens he))
      (fun _ _ _ => trivial) peer).mono fun _ _ => trivial
  have hget : ∀ conn : NodeConnection, (conn.getVerified C address : Prog Net Cells _).Safe K
      fun _ => True := by
    intro conn
    rw [getVerified_eq]
    exact ⟨ha _ .nextSeq, fun seq _ => ⟨ha _ .get, fun answer _ => trivial⟩⟩
  have hloop : ∀ peers lastErr, (getFrom C address peers lastErr).Safe K fun _ => True := by
    intro peers
    induction peers with
    | nil => exact fun lastErr => trivial
    | cons peer peers ih =>
      refine fun lastErr => (hconn peer).bind fun r _ => ?_
      cases r with
      | error e => exact ih e
      | ok conn =>
        refine (hget conn).bind fun r _ => ?_
        cases r with
        | error e => exact ih e
        | ok content => trivial
  unfold WasmClient.getDirect
  rw [closestPeers_eq, call_bindE]
  refine ⟨ha _ .nextSeq, fun seq _ => ?_⟩
  simp only [call_bindE]
  refine ⟨ha _ .discover, fun answer _ => ?_⟩
  show Safe K _ (bindE (.ret (peersResult C answer)) _)
  cases peersResult C answer with
  | error e => trivial
  | ok peers =>
    show Safe K _ (if peers.isEmpty then _ else _)
    split
    · trivial
    · exact hloop peers ""

theorem SelfEncryption.Undoes.complete (hS : S.Undoes C step) : S.Complete C step where
  encrypt data map chunks he := by
    obtain ⟨levels, root, contents, hchain, hroot, hf, -⟩ := hS.encrypt data map chunks he
    refine ⟨levels, root, hchain, hroot, fun a ha => ?_⟩
    obtain ⟨b, -, hb⟩ := exists_of_mem_right hf.flip a ha
    exact ⟨b, hb⟩
  shrink := hS.shrink

/-- The levels of an upload, and the data behind them. -/
theorem uploadItems_levels (hS : S.Undoes C step) {data : Bytes} {items : List (XorName × Bytes)}
    {mapAddress : XorName} (h : uploadItems S C data = .ok (items, mapAddress))
    {serve : XorName → Bytes} (hserve : ∀ x ∈ items, serve x.1 = x.2) :
    ∃ chunks mapBytes shrunk levels root, items = chunks ++ [(mapAddress, mapBytes)] ∧
      mapAddress = C.blake3 mapBytes ∧ Uploads step S C chunks mapBytes shrunk levels root ∧
      Levels S step serve mapAddress (fun i => (levels[i]?).getD root) levels.length data := by
  obtain ⟨map, chunks, calls, shrunk, mapBytes, he, hs, hv, ha, rfl⟩ := uploadItems_eq h
  obtain ⟨levels, root, contents, hchain, hroot, hf, hd⟩ := hS.encrypt _ _ _ he
  obtain ⟨⟨levels', hchain'⟩, hcalls⟩ := hS.shrink _ _ _ _ _ he hs
  have hinfos : ∀ a ∈ S.infos root, ∃ bytes, Held C chunks a bytes := by
    intro a ha
    obtain ⟨b, -, hb⟩ := exists_of_mem_right hf.flip a ha
    exact ⟨b, hb⟩
  have hup := hchain.uploads hv hroot hinfos hchain' hcalls
  have hmem : ∀ a b, (a, b) ∈ (chunks.map fun c => (C.blake3 c.content, c.content)) ++ calls →
      serve a = b := fun a b hab => hserve (a, b) (List.mem_append_left _ hab)
  obtain ⟨h0, hi⟩ := hup.chain.maps hmem
  refine ⟨_, mapBytes, shrunk, _, root, rfl, ha, hup, ?_, ?_, ?_, ?_, ?_⟩
  · have hm : serve mapAddress = mapBytes := hserve (mapAddress, mapBytes) (by simp)
    rw [hm, h0]
    exact hS.serde _ _ hv
  · exact fun i hlt => (hi i hlt).1
  · exact fun i hlt => (hi i hlt).2
  · simpa using hroot
  · have hc : contents = (S.infos root).map serve :=
      forall₂_serve (fun a b hb => hserve (a, b) (by simp [held_mem hb])) hf
    rw [hc, List.map_map] at hd
    have hlast : ((levels' ++ levels)[(levels' ++ levels).length]?).getD root = root := by simp
    rw [hlast]
    exact hd

/-- **What an upload stores is its data**: the outcome of a download, if each address stands
    for the item that was stored under it. -/
theorem uploadItems_outcome (hS : S.Undoes C step) {data : Bytes}
    (hdepth : AtMostOneLevel S C step data) {items : List (XorName × Bytes)} {mapAddress : XorName}
    (h : uploadItems S C data = .ok (items, mapAddress)) {serve : XorName → Bytes}
    (hserve : ∀ x ∈ items, serve x.1 = x.2) :
    mapAddress ∈ items.map Prod.fst ∧ (∀ x ∈ items, C.blake3 x.2 = x.1) ∧
      (∀ map, S.fromSlice (serve mapAddress) = .ok map →
        Covered S (fun a => a ∈ items.map Prod.fst) serve map) ∧
      downloadOutcome S serve mapAddress = .ok data := by
  obtain ⟨chunks, mapBytes, shrunk, levels, root, rfl, rfl, hup, hL⟩ := uploadItems_levels hS h hserve
  have hd := hdepth _ _ _ _ _ _ h hup
  have hhash : ∀ x ∈ chunks ++ [(C.blake3 mapBytes, mapBytes)], C.blake3 x.2 = x.1 := by
    intro x hx
    rcases List.mem_append.1 hx with hx | hx
    · exact hup.hashed x hx
    · rw [List.mem_singleton.1 hx]
  have hment : ∀ a, Mentioned S (C.blake3 mapBytes) (fun i => (levels[i]?).getD root) levels.length a →
      ∃ bytes, (a, bytes) ∈ chunks ++ [(C.blake3 mapBytes, mapBytes)] := by
    rintro a (rfl | ⟨i, -, ha⟩)
    · exact ⟨mapBytes, by simp⟩
    · have hmap : (levels[i]?).getD root ∈ root :: levels := by
        cases hi : levels[i]? with
        | none => exact List.mem_cons_self
        | some level => exact List.mem_cons_of_mem _ (List.mem_of_getElem? hi)
      obtain ⟨bytes, hb⟩ := hup.mentioned _ hmap a ha
      exact ⟨bytes, List.mem_append_left _ hb⟩
  have hc : ∀ a, Mentioned S (C.blake3 mapBytes) (fun i => (levels[i]?).getD root) levels.length a →
      C.blake3 (serve a) = a := by
    intro a ha
    obtain ⟨bytes, hb⟩ := hment a ha
    rw [hserve _ hb]
    exact hhash _ hb
  obtain ⟨hcov, hout⟩ := downloadOutcome_levels hS.follows
    (fun a bytes hb => (hS.verifying a bytes _).2 ⟨hb, rfl⟩) hL hc
  refine ⟨by simp, hhash, fun map hmap => ?_, ?_⟩
  · rw [hL.first] at hmap
    cases hmap
    have hin : ∀ a, Mentioned S (C.blake3 mapBytes) (fun i => (levels[i]?).getD root) levels.length a →
        a ∈ (chunks ++ [(C.blake3 mapBytes, mapBytes)]).map Prod.fst := by
      intro a ha
      obtain ⟨bytes, hb⟩ := hment a ha
      exact List.mem_map_of_mem (f := Prod.fst) hb
    exact ⟨fun a ha => hin a (hcov.1 a ha), fun root' hr a ha => hin a (hcov.2 root' hr a ha)⟩
  · rcases hout with ⟨-, ho⟩ | ⟨hno, -⟩
    · exact ho
    · exact absurd (fun i h0 hi => by omega) hno

/-- **Upload, then download, is the identity**: if an upload returned an address, its items
    were stored, and a download of the address from peers that serve each of them asks for these
    items only, and returns the data. -/
theorem upload_download (hS : S.Undoes C step) {data : Bytes}
    (hdepth : AtMostOneLevel S C step data) {tokenAddrHex vaultAddrHex addressHex : String}
    {I : Cells → Cells → Prop} {s s' : Cells} {tr : List (Ev Net)}
    (hup : Run I (client.upload S C data tokenAddrHex vaultAddrHex) s tr (some (.ok addressHex)) s')
    {items : List (XorName × Bytes)} {mapAddress : XorName}
    (hitems : uploadItems S C data = .ok (items, mapAddress)) {serve : XorName → Bytes}
    (hserve : ∀ x ∈ items, serve x.1 = x.2) {reader : WasmClient} {E : Ev Net → Prop}
    (hE : ∀ x ∈ items, (reader.getDirect C x.1).Safe (.answers E) fun r => r = .ok (serve x.1)) :
    (∃ token vault, StoredAll C client token vault items tr) ∧
    (∀ J t tr' o t', Run J (reader.download S C addressHex) t tr' o t' → (∀ ev ∈ tr', E ev) →
      (∀ ev ∈ tr', ∃ a ∈ items.map Prod.fst, NetReq.FetchOf a ev.req) ∧
        ∀ result, o = some result → result = .ok data) ∧
    ((∀ e, ∃ r, E ⟨e, r⟩) → ∀ t, ∃ tr' t',
      Run (Any Cells) (reader.download S C addressHex) t tr' (some (.ok data)) t' ∧
        ∀ ev ∈ tr', E ev) := by
  obtain ⟨hstored, rfl⟩ : (∃ token vault, StoredAll C client token vault items tr) ∧
      addressHex = hexEncode mapAddress.1 := by
    rcases upload_run hup with ⟨-, hne⟩ | ⟨token, vault, _, _, hi, hr⟩
    · exact absurd rfl (hne addressHex)
    · rw [hitems] at hi
      cases hi
      obtain ⟨_, tr₁, _, tr₂, rfl, hall, hret⟩ := Run.bindE_ok hr
      obtain ⟨h, rfl, -⟩ := Run.ret_some hret
      rw [List.append_nil]
      refine ⟨⟨token, vault, ?_⟩, Except.ok.inj h⟩
      rcases storeAll_run hall.any with ⟨h, -⟩ | ⟨_, _, _, _, _, _, _, _, -, -, -, -, -, hne⟩
      · exact h
      · exact absurd rfl hne
  obtain ⟨haddr, hhash, hcov, hout⟩ := uploadItems_outcome hS hdepth hitems hserve
  have hget : ∀ a, a ∈ items.map Prod.fst → (reader.getDirect C a).Safe (.answers E)
      fun r => r = .ok (serve a) := by
    intro a ha
    obtain ⟨x, hx, rfl⟩ := List.mem_map.1 ha
    exact hE x hx
  have hverify : Verifies S (fun a => a ∈ items.map Prod.fst) False serve := by
    refine Or.inr fun a ha => ?_
    obtain ⟨x, hx, rfl⟩ := List.mem_map.1 ha
    rw [hserve x hx]
    exact ⟨_, (hS.verifying _ _ _).2 ⟨hhash x hx, rfl⟩⟩
  have hsafe : (reader.download S C (hexEncode mapAddress.1)).Safe (Contract.answers E)
      (Yields False (downloadOutcome S serve mapAddress)) :=
    download_safe C (fun _ => trivial) (fun a ha => (hget a ha).mono fun r hr => Or.inl hr)
      (parseAddress_hexEncode _ _) haddr hcov hverify
  have hasks : (reader.download S C (hexEncode mapAddress.1)).Safe
      { Contract.answers E with asks := fun e => ∃ a ∈ items.map Prod.fst, NetReq.FetchOf a e }
      (Yields False (downloadOutcome S serve mapAddress)) := by
    refine download_safe C (fun _ => trivial) (fun a ha => ?_) (parseAddress_hexEncode _ _) haddr hcov
      hverify
    have hf : (reader.getDirect C a).Safe
        { Contract.answers E with asks := fun e => ∃ a ∈ items.map Prod.fst, NetReq.FetchOf a e }
        fun _ => True := by
      refine getDirect_fetchOf (fun _ => trivial) (fun e he => ?_) reader
      exact ⟨a, ha, he⟩
    exact ((hget a ha).mono fun r hr => Or.inl hr).restrict hf
  rw [hout] at hsafe hasks
  refine ⟨hstored, ?_, ?_⟩
  · intro J t tr' o t' hrun hev
    obtain ⟨-, h1, h2⟩ := Safe.run (hrun.mono fun _ _ _ _ => trivial) hasks trivial hev
    exact ⟨h1, fun result ho => (h2 result ho).resolve_right fun h => h.1⟩
  · intro htotal t
    obtain ⟨tr', result, t', hrun, hev, hy⟩ := hsafe.exists_run htotal t
    obtain rfl := hy.resolve_right fun h => h.1
    exact ⟨tr', t', hrun, hev⟩

/-! ## An instance -/

theorem SelfEncryption.transparent_undoes :
    SelfEncryption.transparent.Undoes .transparent fun map _ => .ok map.tail where
  encrypt data map chunks h := by
    cases h
    have hf : List.Forall₂ (Held Crates.transparent [⟨data⟩]) [first32 data] [data] :=
      .cons ⟨by simp, rfl⟩ .nil
    refine ⟨[], _, [data], .here, rfl, hf, ?_⟩
    simp [SelfEncryption.transparent]
  shrink := SelfEncryption.transparent_complete.shrink
  follows := SelfEncryption.transparent_followsLevels
  verifying := SelfEncryption.transparent_verifying
  serde map bytes h := by
    have hl : map.length < 2 ^ 32 ∧ Postcard.vec Subtype.val map = bytes := by
      simp only [SelfEncryption.transparent] at h
      split_ifs at h with hl
      exact ⟨hl, Except.ok.inj h⟩
    rw [← hl.2]
    exact SelfEncryption.transparent_fromSlice hl.1

/-- A map of the instance has fewer levels than elements. -/
theorem transparent_levels_lt {held : XorName → Bytes → Prop} {map root : List XorName}
    {levels : List (List XorName)} (hmap : map ≠ [])
    (h : MapChain .transparent (fun map _ => .ok map.tail) held map levels root) :
    levels.length < map.length := by
  induction h with
  | here => exact List.length_pos_iff.2 hmap
  | @level map next levels root contents hch hf hs hc ih =>
    have hlen : 1 < map.length := by simpa [SelfEncryption.transparent] using hch
    cases hs
    have hne : map.tail ≠ [] := by
      rw [← List.length_pos_iff, List.length_tail]
      omega
    have h := ih hne
    rw [List.length_tail] at h
    rw [List.length_cons]
    omega

theorem transparent_atMostOneLevel (data : Bytes) :
    AtMostOneLevel .transparent .transparent (fun map _ => .ok map.tail) data := by
  intro chunks mapAddress mapBytes shrunk levels root hi hup
  obtain ⟨map, encrypted, calls, shrunk', mapBytes', he, hs, hv, -, hitems⟩ := uploadItems_eq hi
  cases he
  cases hs
  have hbytes : mapBytes = mapBytes' := by
    have hlast := (List.append_inj_right' hitems rfl)
    simpa using hlast
  have hmap := SelfEncryption.transparent_undoes.serde _ _ hup.vec
  rw [hbytes, SelfEncryption.transparent_undoes.serde _ _ hv] at hmap
  cases hmap
  have := transparent_levels_lt (by simp) hup.chain
  simp at this
  omega

/-- The items of an upload of one byte: the file, its map, and the map of the wrapper. -/
def smallItems : List (XorName × Bytes) :=
  let file := [7]
  let map := Postcard.vec Subtype.val [first32 file]
  let wrapper := Postcard.vec Subtype.val [first32 map, first32 file]
  [(first32 file, file), (first32 map, map), (first32 wrapper, wrapper)]

/-- Serve the items. -/
def serveItems (items : List (XorName × Bytes)) (address : XorName) : Bytes :=
  ((items.find? fun x => x.1 = address).map Prod.snd).getD address.1

theorem upload_download_storing : ∃ addressHex tr' s', storingRun.2.1 = .ok addressHex ∧
    (∃ token vault, StoredAll .transparent honestClient token vault smallItems storingRun.1) ∧
    (pays storingRun.1 ≠ [] ∧ ∃ ev ∈ storingRun.1, Puts ev) ∧
    Run (Any Cells) (honestClient.download .transparent .transparent addressHex) .empty tr'
      (some (.ok [7])) s' := by
  have hitems : ∃ mapAddress,
      uploadItems .transparent .transparent [7] = .ok (smallItems, mapAddress) := ⟨_, rfl⟩
  obtain ⟨mapAddress, hitems⟩ := hitems
  obtain ⟨hpaid, hok⟩ := storingRun_paid hitems (by simp [smallItems])
  have hup := storingRun_run (I := Any Cells) fun _ => trivial
  rw [hok] at hup
  have hserve : ∀ x ∈ smallItems, serveItems smallItems x.1 = x.2 := by decide
  have hE : ∀ x ∈ smallItems, (honestClient.getDirect .transparent x.1).Safe
      (.answers (Honest [honestPeer] (serving (serveItems smallItems))))
      fun r => r = .ok (serveItems smallItems x.1) := by
    intro x hx
    refine getDirect_honest (length_peers_lt (by decide) (by simp)) (by simp) ?_ ?_ rfl
    · rw [hserve x hx]
      revert x
      decide
    · rw [hserve x hx]
      revert x
      decide
  obtain ⟨hstored, -, hdownload⟩ := upload_download SelfEncryption.transparent_undoes
    (transparent_atMostOneLevel _) hup hitems hserve hE
  obtain ⟨tr', s', hdown, -⟩ := hdownload (Honest.total _ _) .empty
  exact ⟨_, tr', s', hok, hstored, hpaid, hdown⟩

end AntClient
