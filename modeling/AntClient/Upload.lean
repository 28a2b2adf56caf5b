/-
  Uploads (`lib.rs`): encrypt, list the chunks, and store them one after the other, the
  data map last.

  `MapChain` are the wrapper levels between a data map and its root map; that the
  self-encryption crate hands out every chunk of these levels is `Complete`.

  * `upload_publishesLast`: when the data map is put, every chunk that it and its levels
    mention has been stored.
-/
import AntClient.Download
import AntClient.PaidProof

namespace AntClient

open Async Prog Bytes

variable {DataMap : Type} (S : SelfEncryption DataMap) (C : Crates)

/-! ## The upload -/

/-- The chunks of an upload in the order in which they are stored, and the address of the
    last one, the data map. -/
def uploadItems (data : Bytes) : Except String (List (XorName × Bytes) × XorName) :=
  match S.encrypt data with
  | .error e => .error s!"self-encryption failed: {e}"
  | .ok (dataMap, chunks) =>
    let items := chunks.map fun c => (C.blake3 c.content, c.content)
    match S.shrinkDataMap dataMap with
    | .error e => .error s!"data map shrink failed: {e}"
    | .ok (wrappers, shrunk) =>
      match S.toVec shrunk with
      | .error e => .error s!"data map serialize failed: {e}"
      | .ok mapBytes =>
        let mapAddress := C.blake3 mapBytes
        .ok (items ++ wrappers ++ [(mapAddress, mapBytes)], mapAddress)

/-- Store each item against its close group. -/
def WasmClient.storeAll (self : WasmClient) (token vault : Arr 20) :
    List (XorName × Bytes) → Prog Net Cells (Except String Unit)
  | [] => .ret (.ok ())
  | (address, content) :: items =>
    bindE (self.storeOne C address content token vault) fun _ => self.storeAll token vault items

/-- Encrypt, pay for, and store `data`, returning the public file address. -/
def WasmClient.upload (self : WasmClient) (data : Bytes) (tokenAddrHex vaultAddrHex : String) :
    Prog Net Cells (Except String String) :=
  bindE (.ret (parseEthAddress C tokenAddrHex)) fun token =>
  bindE (.ret (parseEthAddress C vaultAddrHex)) fun vault =>
  bindE (.ret (uploadItems S C data)) fun (items, mapAddress) =>
  bindE (self.storeAll C token vault items) fun _ =>
  .ret (.ok (hexEncode mapAddress.1))

/-! ## Wrapper levels -/

/-- The child maps `levels` lead from `map` to `root`: the chunks of each are held and
    decrypt to the next map. -/
inductive MapChain (step : DataMap → List Bytes → Except String DataMap)
    (held : XorName → Bytes → Prop) : DataMap → List DataMap → DataMap → Prop
  | here {map} : MapChain step held map [] map
  | level {map next levels root contents} : S.isChild map = true →
      List.Forall₂ held (S.infos map) contents → step map contents = .ok next →
      MapChain step held next levels root → MapChain step held map (map :: levels) root

/-- The chunks that `encrypt` returned, by their hashes. -/
def Held (chunks : List EncryptedChunk) (a : XorName) (bytes : Bytes) : Prop :=
  ⟨bytes⟩ ∈ chunks ∧ C.blake3 bytes = a

/-- `encrypt` returns every chunk that the levels of its data map mention, and
    `shrink_data_map` passes those of the levels it adds to its callback. -/
structure SelfEncryption.Complete (step : DataMap → List Bytes → Except String DataMap) :
    Prop where
  encrypt : ∀ data map chunks, S.encrypt data = .ok (map, chunks) →
    ∃ levels root, MapChain S step (Held C chunks) map levels root ∧ S.isChild root = false ∧
      ∀ a ∈ S.infos root, ∃ bytes, Held C chunks a bytes
  shrink : ∀ data map chunks calls shrunk, S.encrypt data = .ok (map, chunks) →
    S.shrinkDataMap map = .ok (calls, shrunk) →
    (∃ levels, MapChain S step (fun a bytes => (a, bytes) ∈ calls) shrunk levels map) ∧
      ∀ x ∈ calls, C.blake3 x.2 = x.1

variable {S C} {step : DataMap → List Bytes → Except String DataMap}

theorem MapChain.mono {held held' : XorName → Bytes → Prop} (h : ∀ a b, held a b → held' a b)
    {map root : DataMap} {levels : List DataMap} (hc : MapChain S step held map levels root) :
    MapChain S step held' map levels root := by
  induction hc with
  | here => exact .here
  | level hch hf hs _ ih => exact .level hch (hf.imp h) hs ih

theorem MapChain.trans {held : XorName → Bytes → Prop} {map mid root : DataMap}
    {levels levels' : List DataMap} (h : MapChain S step held map levels mid)
    (h' : MapChain S step held mid levels' root) :
    MapChain S step held map (levels ++ levels') root := by
  induction h with
  | here => exact h'
  | level hch hf hs _ ih => exact .level hch hf hs (ih h')

/-- Every chunk that a level mentions is held. -/
theorem MapChain.held {held : XorName → Bytes → Prop} {map root : DataMap} {levels : List DataMap}
    (h : MapChain S step held map levels root) :
    ∀ level ∈ levels, ∀ a ∈ S.infos level, ∃ bytes, held a bytes := by
  induction h with
  | here => simp
  | level _ hf _ _ ih =>
    refine List.forall_mem_cons.2 ⟨fun a ha => ?_, ih⟩
    obtain ⟨b, -, hb⟩ := exists_of_mem_right hf.flip a ha
    exact ⟨b, hb⟩

/-! ## The items -/

/-- What is stored: chunks named by their hashes, then the data map. -/
structure Uploads (step : DataMap → List Bytes → Except String DataMap) (S : SelfEncryption DataMap)
    (C : Crates) (chunks : List (XorName × Bytes)) (mapBytes : Bytes) (shrunk : DataMap)
    (levels : List DataMap) (root : DataMap) : Prop where
  vec : S.toVec shrunk = .ok mapBytes
  chain : MapChain S step (fun a bytes => (a, bytes) ∈ chunks) shrunk levels root
  last : S.isChild root = false
  mentioned : ∀ map ∈ root :: levels, ∀ a ∈ S.infos map, ∃ bytes, (a, bytes) ∈ chunks
  hashed : ∀ x ∈ chunks, C.blake3 x.2 = x.1

theorem uploadItems_eq {data : Bytes} {items : List (XorName × Bytes)} {mapAddress : XorName}
    (h : uploadItems S C data = .ok (items, mapAddress)) :
    ∃ map chunks calls shrunk mapBytes, S.encrypt data = .ok (map, chunks) ∧
      S.shrinkDataMap map = .ok (calls, shrunk) ∧ S.toVec shrunk = .ok mapBytes ∧
      mapAddress = C.blake3 mapBytes ∧
      items = (chunks.map fun c => (C.blake3 c.content, c.content)) ++ calls ++
        [(mapAddress, mapBytes)] := by
  unfold uploadItems at h
  split at h
  · cases h
  rename_i map chunks he
  dsimp only at h
  split at h
  · cases h
  rename_i calls shrunk hs
  split at h
  · cases h
  rename_i mapBytes hv
  cases h
  exact ⟨map, chunks, calls, shrunk, mapBytes, he, hs, hv, rfl, rfl⟩

theorem held_mem {chunks : List EncryptedChunk} {a : XorName} {bytes : Bytes}
    (h : Held C chunks a bytes) :
    (a, bytes) ∈ chunks.map fun c => (C.blake3 c.content, c.content) := by
  obtain ⟨hm, rfl⟩ := h
  exact List.mem_map.2 ⟨_, hm, rfl⟩

theorem MapChain.uploads {map shrunk root : DataMap} {encrypted : List EncryptedChunk}
    {calls : List (XorName × Bytes)} {levels levels' : List DataMap} {mapBytes : Bytes}
    (hv : S.toVec shrunk = .ok mapBytes)
    (hchain : MapChain S step (Held C encrypted) map levels root) (hroot : S.isChild root = false)
    (hinfos : ∀ a ∈ S.infos root, ∃ bytes, Held C encrypted a bytes)
    (hchain' : MapChain S step (fun a bytes => (a, bytes) ∈ calls) shrunk levels' map)
    (hcalls : ∀ x ∈ calls, C.blake3 x.2 = x.1) :
    Uploads step S C ((encrypted.map fun c => (C.blake3 c.content, c.content)) ++ calls) mapBytes
      shrunk (levels' ++ levels) root := by
  have hch : MapChain S step (fun a bytes => (a, bytes) ∈
      (encrypted.map fun c => (C.blake3 c.content, c.content)) ++ calls) shrunk
      (levels' ++ levels) root := by
    refine (hchain'.mono fun a b hb => ?_).trans (hchain.mono fun a b hb => ?_)
    · exact List.mem_append_right _ hb
    · exact List.mem_append_left _ (held_mem hb)
  refine ⟨hv, hch, hroot, ?_, ?_⟩
  · refine List.forall_mem_cons.2 ⟨fun a ha => ?_, hch.held⟩
    obtain ⟨bytes, hb⟩ := hinfos a ha
    exact ⟨bytes, List.mem_append_left _ (held_mem hb)⟩
  · intro x hx
    rcases List.mem_append.1 hx with hx | hx
    · obtain ⟨c, -, rfl⟩ := List.mem_map.1 hx
      rfl
    · exact hcalls x hx

/-- **The chunks of an upload** are those that the data map and its levels mention. -/
theorem uploadItems_uploads (hS : S.Complete C step) {data : Bytes}
    {items : List (XorName × Bytes)} {mapAddress : XorName}
    (h : uploadItems S C data = .ok (items, mapAddress)) :
    ∃ chunks mapBytes shrunk levels root, items = chunks ++ [(mapAddress, mapBytes)] ∧
      mapAddress = C.blake3 mapBytes ∧ Uploads step S C chunks mapBytes shrunk levels root := by
  obtain ⟨map, chunks, calls, shrunk, mapBytes, he, hs, hv, ha, rfl⟩ := uploadItems_eq h
  obtain ⟨levels, root, hchain, hroot, hinfos⟩ := hS.encrypt _ _ _ he
  obtain ⟨⟨levels', hchain'⟩, hcalls⟩ := hS.shrink _ _ _ _ _ he hs
  exact ⟨_, mapBytes, shrunk, _, root, rfl, ha, hchain.uploads hv hroot hinfos hchain' hcalls⟩

/-! ## The runs of an upload -/

section
variable (S C) (client : WasmClient) (token vault : Arr 20)

/-- `store_one` has returned Ok for the items, one after the other, in the events. -/
inductive StoredAll : List (XorName × Bytes) → List (Ev Net) → Prop
  | nil : StoredAll [] []
  | cons {x items s tr s' tr'} :
      Run (Any Cells) (client.storeOne C x.1 x.2 token vault) s tr (some (.ok ())) s' →
      StoredAll items tr' → StoredAll (x :: items) (tr ++ tr')

/-- The calls of `store_one` in an upload of `chunks` and a data map. -/
inductive UploadRun (chunks : List (XorName × Bytes)) (mapAddress : XorName) (mapBytes : Bytes) :
    List (Ev Net) → Option (Except String String) → Prop
  /-- stopped or failed at a chunk -/
  | chunk {done x rest trD s tr o s' result} : chunks = done ++ x :: rest →
      StoredAll C client token vault done trD →
      Run (Any Cells) (client.storeOne C x.1 x.2 token vault) s tr o s' → o ≠ some (.ok ()) →
      (∀ addr, result ≠ some (.ok addr)) →
      UploadRun chunks mapAddress mapBytes (trD ++ tr) result
  /-- every chunk is stored; then the call for the data map -/
  | map {trD s tr o s' result} : StoredAll C client token vault chunks trD →
      Run (Any Cells) (client.storeOne C mapAddress mapBytes token vault) s tr o s' →
      (∀ addr, result = some (.ok addr) → o = some (.ok ()) ∧ addr = hexEncode mapAddress.1) →
      UploadRun chunks mapAddress mapBytes (trD ++ tr) result

/-- A PUT of the chunk at `address` is sent. -/
def PutsAt (address : XorName) (ev : Ev Net) : Prop :=
  ∃ conn requestId r, r.address = address ∧
    ev.req = .roundTrip conn protoChunk (ChunkMessage.put ⟨requestId, .putRequest r⟩)

end

variable {client : WasmClient} {token vault : Arr 20}

theorem PutsAt.puts {address : XorName} {ev : Ev Net} (h : PutsAt address ev) : Puts ev := by
  obtain ⟨conn, requestId, r, -, hr⟩ := h
  exact ⟨conn, requestId, r, hr⟩

/-- The address of a PUT is read from its bytes. -/
theorem putRequest_address {id id' : UInt64} {r r' : ChunkPutRequest}
    (h : ChunkMessage.put ⟨id, .putRequest r⟩ = ChunkMessage.put ⟨id', .putRequest r'⟩) :
    r.address = r'.address := by
  exact (Arr.append_inj (List.append_cancel_left (ChunkMessage.put_body h))).1

theorem storeOne_putsAt {I : Cells → Cells → Prop} {s s' : Cells} {tr : List (Ev Net)}
    {o : Option (Except String Unit)} {x : XorName × Bytes}
    (h : Run I (client.storeOne C x.1 x.2 token vault) s tr o s') {ev : Ev Net} (hm : ev ∈ tr)
    {address : XorName} (hev : PutsAt address ev) : x.1 = address := by
  obtain ⟨_, _, _, _, _, _, proofBytes, hsends⟩ := storeOne_sends h hm hev.puts
  obtain ⟨pre, post, rfl⟩ := List.append_of_mem hm
  obtain ⟨-, conn, hreq⟩ := hsends.split_put rfl hev.puts
  obtain ⟨conn', id, r, rfl, hreq'⟩ := hev
  exact putRequest_address (NetReq.roundTrip.inj (hreq.symm.trans hreq')).2.2

theorem StoredAll.putsAt {items : List (XorName × Bytes)} {tr : List (Ev Net)}
    (h : StoredAll C client token vault items tr) {ev : Ev Net} (hm : ev ∈ tr) {address : XorName}
    (hev : PutsAt address ev) : address ∈ items.map Prod.fst := by
  induction h with
  | nil => cases hm
  | cons hr _ ih =>
    rcases List.mem_append.1 hm with hm | hm
    · rw [← storeOne_putsAt hr hm hev]
      exact List.mem_cons_self
    · exact List.mem_cons_of_mem _ (ih hm)

/-- The loop stops at an item, or stores them all. -/
theorem storeAll_run {items : List (XorName × Bytes)} :
    ∀ {s s' : Cells} {tr : List (Ev Net)} {o : Option (Except String Unit)},
      Run (Any Cells) (client.storeAll C token vault items) s tr o s' →
      (StoredAll C client token vault items tr ∧ (o = none ∨ o = some (.ok ()))) ∨
      ∃ done x rest trD s₁ tr₁ o₁ s₂, items = done ++ x :: rest ∧ tr = trD ++ tr₁ ∧
        StoredAll C client token vault done trD ∧
        Run (Any Cells) (client.storeOne C x.1 x.2 token vault) s₁ tr₁ o₁ s₂ ∧
        o₁ ≠ some (.ok ()) ∧ o ≠ some (.ok ()) := by
  induction items with
  | nil =>
    intro s s' tr o h
    obtain ⟨rfl, -, ho⟩ := Run.ret_iff.1 h
    exact Or.inl ⟨.nil, ho⟩
  | cons x items ih =>
    intro s s' tr o h
    rcases Run.bindE_iff.1 h with ⟨rfl, hr⟩ | ⟨e, ho, hr⟩ | ⟨u, tr₁, s₁, tr₂, rfl, hr, hrest⟩
    · exact Or.inr ⟨[], x, items, [], s, tr, none, s', rfl, rfl, .nil, hr, by simp, by simp⟩
    · refine Or.inr ⟨[], x, items, [], s, tr, _, s', rfl, rfl, .nil, hr, by simp, ?_⟩
      rcases ho with rfl | rfl <;> simp
    · rcases ih hrest with ⟨hall, ho⟩ | ⟨done, y, rest, trD, s₂, tr₃, o₁, s₃, rfl, rfl, hd, hy, h1, h2⟩
      · exact Or.inl ⟨.cons hr hall, ho⟩
      · exact Or.inr ⟨x :: done, y, rest, tr₁ ++ trD, s₂, tr₃, o₁, s₃, rfl,
          (List.append_assoc _ _ _).symm, .cons hr hd, hy, h1, h2⟩

theorem StoredAll.append_inv {items : List (XorName × Bytes)} {x : XorName × Bytes} :
    ∀ {tr : List (Ev Net)}, StoredAll C client token vault (items ++ [x]) tr →
      ∃ trD s tr₁ s', tr = trD ++ tr₁ ∧ StoredAll C client token vault items trD ∧
        Run (Any Cells) (client.storeOne C x.1 x.2 token vault) s tr₁ (some (.ok ())) s' := by
  induction items with
  | nil =>
    intro tr h
    cases h with
    | cons hr hnil =>
      cases hnil
      exact ⟨[], _, _, _, List.append_nil _, .nil, hr⟩
  | cons y items ih =>
    intro tr h
    cases h with
    | @cons _ _ _ tr₁ _ tr₂ hr hrest =>
      obtain ⟨trD, s, tr₃, s', rfl, hall, hx⟩ := ih hrest
      exact ⟨tr₁ ++ trD, s, tr₃, s', (List.append_assoc _ _ _).symm, .cons hr hall, hx⟩

/-- The calls of an upload. -/
theorem uploadRun_of_storeAll {chunks : List (XorName × Bytes)} {mapAddress : XorName}
    {mapBytes : Bytes} {I : Cells → Cells → Prop} {s s' : Cells} {tr : List (Ev Net)}
    {o : Option (Except String String)}
    (h : Run I (bindE (client.storeAll C token vault (chunks ++ [(mapAddress, mapBytes)])) fun _ =>
      .ret (.ok (hexEncode mapAddress.1))) s tr o s') :
    UploadRun C client token vault chunks mapAddress mapBytes tr o := by
  -- the loop, and what the upload returns after it
  obtain ⟨s₁, o₁, hr, ho⟩ : ∃ s₁ o₁,
      Run (Any Cells) (client.storeAll C token vault (chunks ++ [(mapAddress, mapBytes)])) s tr o₁ s₁ ∧
      ∀ addr, o = some (.ok addr) → o₁ = some (.ok ()) ∧ addr = hexEncode mapAddress.1 := by
    rcases Run.bindE_iff.1 h.any with ⟨rfl, hr⟩ | ⟨e, ho, hr⟩ | ⟨u, tr₁, s₁, tr₂, rfl, hr, hret⟩
    · exact ⟨_, _, hr, by simp⟩
    · refine ⟨_, _, hr, fun addr ha => ?_⟩
      rcases ho with rfl | rfl <;> cases ha
    · obtain ⟨rfl, -, ho⟩ := Run.ret_iff.1 hret
      rw [List.append_nil]
      refine ⟨_, _, hr, fun addr ha => ?_⟩
      subst ha
      rcases ho with ho | ho
      · cases ho
      · cases ho
        exact ⟨rfl, rfl⟩
  rcases storeAll_run hr with ⟨hall, -⟩ | ⟨done, x, rest, trD, s₂, tr₃, o₂, s₃, he, rfl, hd, hx, h1, h2⟩
  · obtain ⟨trD, s₂, tr₁, s₃, rfl, hchunks, hmap⟩ := hall.append_inv
    exact .map hchunks hmap fun addr ha => ⟨rfl, (ho addr ha).2⟩
  · have hne : ∀ addr, o ≠ some (.ok addr) := fun addr ha => h2 (ho addr ha).1
    -- the item is a chunk or the data map
    rcases List.append_eq_append_iff.1 he with ⟨l, rfl, hl⟩ | ⟨l, rfl, hl⟩
    · cases l with
      | nil =>
        simp at hl
        obtain ⟨rfl, rfl⟩ := hl
        rw [List.append_nil] at hd
        exact .map hd hx fun addr ha => absurd ha (hne addr)
      | cons y l =>
        simp at hl
    · cases l with
      | nil =>
        simp at hl
        obtain ⟨rfl, rfl⟩ := hl
        exact .map (by simpa using hd) hx fun addr ha => absurd ha (hne addr)
      | cons y l =>
        simp at hl
        obtain ⟨rfl, rfl⟩ := hl
        exact .chunk rfl hd hx h1 hne

/-! ## The data map is stored last -/

theorem not_ok_of_ret_error {I : Cells → Cells → Prop} {s s' : Cells} {tr : List (Ev Net)}
    {o : Option (Except String String)} {e : String}
    (h : Run I (.ret (.error e) : Prog Net Cells (Except String String)) s tr o s') :
    tr = [] ∧ ∀ addr, o ≠ some (.ok addr) := by
  obtain ⟨rfl, -, ho⟩ := Run.ret_iff.1 h
  refine ⟨rfl, fun addr ha => ?_⟩
  subst ha
  rcases ho with ho | ho <;> cases ho

/-- An upload that sends anything stores its items. -/
theorem upload_run {data : Bytes} {tokenAddrHex vaultAddrHex : String} {I : Cells → Cells → Prop}
    {s s' : Cells} {tr : List (Ev Net)} {o : Option (Except String String)}
    (h : Run I (client.upload S C data tokenAddrHex vaultAddrHex) s tr o s') :
    (tr = [] ∧ ∀ addr, o ≠ some (.ok addr)) ∨
    ∃ token vault items mapAddress, uploadItems S C data = .ok (items, mapAddress) ∧
      Run I (bindE (client.storeAll C token vault items) fun _ =>
        .ret (.ok (hexEncode mapAddress.1))) s tr o s' := by
  unfold WasmClient.upload at h
  cases ht : parseEthAddress C tokenAddrHex with
  | error e =>
    rw [ht] at h
    exact Or.inl (not_ok_of_ret_error h)
  | ok token =>
    cases hv : parseEthAddress C vaultAddrHex with
    | error e =>
      rw [ht, hv] at h
      exact Or.inl (not_ok_of_ret_error h)
    | ok vault =>
      cases hi : uploadItems S C data with
      | error e =>
        rw [ht, hv, hi] at h
        exact Or.inl (not_ok_of_ret_error h)
      | ok x =>
        rw [ht, hv, hi] at h
        exact Or.inr ⟨token, vault, x.1, x.2, rfl, h⟩

/-- When the data map is put, every chunk has been stored. -/
theorem UploadRun.order {chunks : List (XorName × Bytes)} {mapAddress : XorName} {mapBytes : Bytes}
    {tr : List (Ev Net)} {o : Option (Except String String)}
    (h : UploadRun C client token vault chunks mapAddress mapBytes tr o)
    (hfresh : mapAddress ∉ chunks.map Prod.fst) {pre post : List (Ev Net)} {ev : Ev Net}
    (htr : tr = pre ++ ev :: post) (hev : PutsAt mapAddress ev) :
    ∃ trD mid, pre = trD ++ mid ∧ StoredAll C client token vault chunks trD := by
  cases h with
  | @chunk done x rest trD _ tr₁ _ _ _ hc hd hx _ _ =>
    exfalso
    have hm : ev ∈ trD ++ tr₁ := by
      rw [htr]
      simp
    subst hc
    rcases List.mem_append.1 hm with hm | hm
    · have hmem := hd.putsAt hm hev
      rw [List.map_append] at hfresh
      exact hfresh (List.mem_append_left _ hmem)
    · have haddr := storeOne_putsAt hx hm hev
      exact hfresh (by simp [← haddr])
  | @map trD _ tr₁ _ _ _ hall _ _ =>
    have hnot : ev ∉ trD := fun hm => hfresh (hall.putsAt hm hev)
    obtain ⟨mid, rfl, -⟩ := split_of_notMem_left htr hnot
    exact ⟨trD, mid, rfl, hall⟩

theorem StoredAll.snoc {items : List (XorName × Bytes)} {x : XorName × Bytes} {s s' : Cells}
    {tr tr' : List (Ev Net)} (h : StoredAll C client token vault items tr)
    (hx : Run (Any Cells) (client.storeOne C x.1 x.2 token vault) s tr' (some (.ok ())) s') :
    StoredAll C client token vault (items ++ [x]) (tr ++ tr') := by
  induction h with
  | nil => simpa using StoredAll.cons hx .nil
  | cons hr _ ih =>
    rw [List.append_assoc]
    exact .cons hr ih

/-- **The public address is published last**: in every run of an upload that sends
    anything, `store_one` is called for the data map only when it has returned Ok for every
    chunk that the data map, its wrapper levels and the root map mention, so every chunk is
    stored before the first PUT of the data map; and if the upload returns an address, all
    of them and the data map are stored, under the hashes of their bytes. -/
theorem upload_publishesLast (hS : S.Complete C step) {data : Bytes}
    {tokenAddrHex vaultAddrHex : String} {I : Cells → Cells → Prop} {s s' : Cells}
    {tr : List (Ev Net)} {o : Option (Except String String)}
    (h : Run I (client.upload S C data tokenAddrHex vaultAddrHex) s tr o s') :
    (tr = [] ∧ ∀ addr, o ≠ some (.ok addr)) ∨
    ∃ token vault chunks mapAddress mapBytes shrunk levels root,
      uploadItems S C data = .ok (chunks ++ [(mapAddress, mapBytes)], mapAddress) ∧
      mapAddress = C.blake3 mapBytes ∧ Uploads step S C chunks mapBytes shrunk levels root ∧
      UploadRun C client token vault chunks mapAddress mapBytes tr o ∧
      (mapAddress ∉ chunks.map Prod.fst → ∀ pre ev post, tr = pre ++ ev :: post →
        PutsAt mapAddress ev → ∃ trD mid, pre = trD ++ mid ∧ StoredAll C client token vault chunks trD) ∧
      ∀ addr, o = some (.ok addr) → addr = hexEncode mapAddress.1 ∧
        StoredAll C client token vault (chunks ++ [(mapAddress, mapBytes)]) tr := by
  rcases upload_run h with hnil | ⟨token, vault, items, mapAddress, hi, hr⟩
  · exact Or.inl hnil
  · obtain ⟨chunks, mapBytes, shrunk, levels, root, rfl, ha, hup⟩ := uploadItems_uploads hS hi
    have hrun := uploadRun_of_storeAll hr
    refine Or.inr ⟨token, vault, chunks, mapAddress, mapBytes, shrunk, levels, root, hi, ha, hup,
      hrun, fun hfresh pre ev post htr hev => hrun.order hfresh htr hev, fun addr hok => ?_⟩
    cases hrun with
    | chunk _ _ _ _ hne => exact absurd hok (hne addr)
    | map hall hmap hend =>
      obtain ⟨rfl, haddr⟩ := hend addr hok
      exact ⟨haddr, hall.snoc hmap⟩

/-! ## An instance

The transparent self-encryption adds one wrapper level to the map of the file. -/

theorem SelfEncryption.transparent_level {a : XorName} {bytes : Bytes} {map : List XorName}
    (h : map ≠ []) : MapChain .transparent (fun map _ => .ok map.tail)
      (fun b c => (b, c) ∈ [(a, bytes)]) (a :: map) [a :: map] map := by
  have hf : List.Forall₂ (fun b c => (b, c) ∈ [(a, bytes)]) [a] [bytes] :=
    .cons (List.mem_singleton_self _) .nil
  refine .level ?_ hf rfl .here
  simpa [SelfEncryption.transparent, List.length_pos_iff] using h

theorem SelfEncryption.transparent_complete :
    SelfEncryption.transparent.Complete .transparent fun map _ => .ok map.tail where
  encrypt data map chunks h := by
    cases h
    refine ⟨[], _, .here, rfl, fun a ha => ?_⟩
    obtain rfl : a = first32 data := List.mem_singleton.1 ha
    exact ⟨data, by simp, rfl⟩
  shrink data map chunks calls shrunk he hs := by
    cases he
    cases hs
    refine ⟨⟨_, transparent_level (by simp)⟩, fun x hx => ?_⟩
    rw [List.mem_singleton.1 hx]
    rfl

/-- Seven nodes that have no chunk and take every one. -/
def storingNodes : QuotingNodes := quotingNodes sevenNodes none true

/-- A chunk is paid for and stored. -/
theorem storeOne_storing (x : XorName × Bytes) (token vault : Arr 20) {s : Cells}
    (hs : Connected sevenNodes s) :
    let run := (honestClient.storeOne .transparent x.1 x.2 token vault).exec storingNodes.answer s
    (pays run.1 ≠ [] ∧ ∃ ev ∈ run.1, Puts ev) ∧ run.2.1 = .ok () ∧
      Connected sevenNodes run.2.2 := by
  have htake : (peersOf sevenNodes).take closeGroupSize = peersOf sevenNodes := rfl
  have hids : ∀ peer ∈ (peersOf sevenNodes).take closeGroupSize,
      peer.peerId ∈ storingNodes.ids := by
    intro peer hpeer
    have h := List.mem_map_of_mem (f := PeerConnectInfo.peerId) hpeer
    rwa [htake, map_peerId_peersOf] at h
  have hvalid : storingNodes.Valid .transparent x.1 :=
    quotingNodes_valid x.1 sevenNodes (by rintro b ⟨⟩) true
  have hp : peersResult .transparent (.ok storingNodes.plaintext) = .ok (peersOf sevenNodes) :=
    peersResult_put (length_peersOf_lt (by decide))
  obtain ⟨seg, quoted, payments, r₁, r₂, proofBytes, conn, answer, post, -, -, htr⟩ :=
    exec_storeOne_paid hvalid rfl hp le_rfl hids hs honestClient x.2 token vault
  refine ⟨⟨?_, ?_⟩, storeOne_quoting hvalid rfl rfl hp le_rfl hids hs honestClient x.2 token vault⟩
  · rw [htr, pays_append, pays_append]
    simp [pays, approveEvent, NetReq.isPay]
  · rw [htr]
    exact ⟨_, List.mem_append_right _ (List.mem_append_right _
      (List.mem_cons_of_mem _ (List.mem_cons_of_mem _ List.mem_cons_self))), conn, 1, _, rfl⟩

theorem paid_append {tr : List (Ev Net)} (h : pays tr ≠ [] ∧ ∃ ev ∈ tr, Puts ev)
    (tr' : List (Ev Net)) : pays (tr ++ tr') ≠ [] ∧ ∃ ev ∈ tr ++ tr', Puts ev := by
  obtain ⟨hpays, ev, hev, hputs⟩ := h
  rw [pays_append]
  exact ⟨fun he => hpays (List.append_eq_nil_iff.1 he).1, ev, List.mem_append_left _ hev, hputs⟩

/-- So are any number of chunks. -/
theorem storeAll_storing (items : List (XorName × Bytes)) (token vault : Arr 20) :
    ∀ {s : Cells}, Connected sevenNodes s →
      let run := (honestClient.storeAll .transparent token vault items).exec storingNodes.answer s
      (items ≠ [] → pays run.1 ≠ [] ∧ ∃ ev ∈ run.1, Puts ev) ∧ run.2.1 = .ok () := by
  induction items with
  | nil => exact fun _ => ⟨fun h => absurd rfl h, rfl⟩
  | cons x items ih =>
    intro s hs
    obtain ⟨hpaid, hok, hs'⟩ := storeOne_storing x token vault hs
    rw [WasmClient.storeAll, bindE, exec_bind, hok]
    exact ⟨fun _ => paid_append hpaid _, (ih hs').2⟩

/-- The client uploads a byte to the seven nodes. -/
def storingRun : List (Ev Net) × Except String String × Cells :=
  (honestClient.upload .transparent .transparent [7] (toHex (zeros 20)) (toHex (zeros 20))).exec
    storingNodes.answer (connected sevenNodes)

theorem storingRun_run {I : Cells → Cells → Prop} (hI : ∀ s, I s s) :
    Run I (honestClient.upload .transparent .transparent [7] (toHex (zeros 20)) (toHex (zeros 20)))
      (connected sevenNodes) storingRun.1 (some storingRun.2.1) storingRun.2.2 := exec_run _ hI _ _

/-- It pays, sends PUTs, and succeeds. -/
theorem storingRun_paid {items : List (XorName × Bytes)} {mapAddress : XorName}
    (h : uploadItems .transparent .transparent [7] = .ok (items, mapAddress)) (hne : items ≠ []) :
    (pays storingRun.1 ≠ [] ∧ ∃ ev ∈ storingRun.1, Puts ev) ∧
      storingRun.2.1 = .ok (hexEncode mapAddress.1) := by
  obtain ⟨hpaid, hok⟩ :=
    storeAll_storing items (zeros 20) (zeros 20) (connected_connected sevenNodes)
  have hexec : storingRun = exec (S := Net) storingNodes.answer
      (bindE (honestClient.storeAll .transparent (zeros 20) (zeros 20) items) fun _ =>
        .ret (.ok (hexEncode mapAddress.1))) (connected sevenNodes) := by
    rw [storingRun, WasmClient.upload, parseEthAddress_toHex, h]
    rfl
  rw [hexec, bindE, exec_bind, hok]
  exact ⟨paid_append (hpaid hne) _, rfl⟩

theorem upload_publishesLast_storing :
    (pays storingRun.1 ≠ [] ∧ ∃ ev ∈ storingRun.1, Puts ev) ∧
    ∃ addr token vault chunks mapAddress mapBytes, storingRun.2.1 = .ok addr ∧
      addr = hexEncode mapAddress.1 ∧
      StoredAll .transparent honestClient token vault (chunks ++ [(mapAddress, mapBytes)])
        storingRun.1 := by
  have hitems : ∃ x items mapAddress,
      uploadItems .transparent .transparent [7] = .ok (x :: items, mapAddress) := ⟨_, _, _, rfl⟩
  obtain ⟨x, items, mapAddress, hi⟩ := hitems
  obtain ⟨hpaid, hok⟩ := storingRun_paid hi (by simp)
  have hr := storingRun_run (I := Any Cells) fun _ => trivial
  rw [hok] at hr
  rcases upload_publishesLast SelfEncryption.transparent_complete hr with
    ⟨-, hne⟩ | ⟨token, vault, chunks, a, mapBytes, shrunk, levels, root, -, -, -, -, -, hstored⟩
  · exact absurd rfl (hne _)
  · obtain ⟨haddr, hall⟩ := hstored _ rfl
    exact ⟨hpaid, _, token, vault, chunks, a, mapBytes, hok, haddr, hall⟩

end AntClient
