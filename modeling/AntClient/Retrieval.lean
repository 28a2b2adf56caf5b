/-
  The verified retrieval state machine (`retrieval.rs`).

  A retrieval holds a data map and the chunks supplied so far.  A shrunk (child)
  map is replaced by its root map once its own chunks are there.

  * `Retrieval.outcome`: the plaintext as a function of the first map and of the
    chunk each address stands for; `downloadOutcome`: as a function of the address
    and of the bytes each address stands for.
  * `Retrieval.Fits`: the state of a retrieval that was given no other chunks.
  * `Fits.finish`: such a retrieval, if complete, finishes with that plaintext.
-/
import AntClient.Lib.Postcard
import AntClient.Text

namespace AntClient

/-! ## The self-encryption crate -/

structure EncryptedChunk where
  content : Bytes

/-- `self_encryption`, and `rmp_serde` on its data maps. -/
structure SelfEncryption (DataMap : Type) where
  /-- the `dst_hash` of each of `infos()` -/
  infos : DataMap → List XorName
  isChild : DataMap → Bool
  verifyChunk : XorName → Bytes → Except String EncryptedChunk
  decrypt : DataMap → List EncryptedChunk → Except String Bytes
  /-- the second argument is the callback that fetches a chunk -/
  getRootDataMap : DataMap → (XorName → Except String Bytes) → Except String DataMap
  encrypt : Bytes → Except String (DataMap × List EncryptedChunk)
  /-- the arguments of each call of a callback that accepts, and the shrunk map -/
  shrinkDataMap : DataMap → Except String (List (XorName × Bytes) × DataMap)
  toVec : DataMap → Except String Bytes
  fromSlice : Bytes → Except String DataMap
  /-- the text of an `Error::Generic` -/
  generic : String → String

variable {DataMap : Type} (S : SelfEncryption DataMap)

/-! ## The state machine -/

/-- An in-progress retrieval of one piece of content. -/
structure Retrieval (DataMap : Type) where
  map : DataMap
  rootResolved : Bool
  cache : Std.HashMap XorName EncryptedChunk

namespace Retrieval

/-- Start from the chunk stored at a public address. -/
def start (address : XorName) (bytes : Bytes) : Except String (Retrieval DataMap) :=
  match S.verifyChunk address bytes with
  | .error e => .error s!"data map chunk failed verification: {e}"
  | .ok _ =>
    match S.fromSlice bytes with
    | .error e => .error s!"address does not hold a data map: {e}"
    | .ok map => .ok ⟨map, !S.isChild map, ∅⟩

/-- Addresses still needed. -/
def requiredAddresses (self : Retrieval DataMap) : List XorName :=
  (S.infos self.map).filter fun a => !self.cache.contains a

/-- Accept bytes for one address, verifying them first. -/
def supply (self : Retrieval DataMap) (address : XorName) (bytes : Bytes) :
    Except String Unit × Retrieval DataMap :=
  match S.verifyChunk address bytes with
  | .error e => (.error s!"chunk {hexEncode address.1} failed verification: {e}", self)
  | .ok chunk => (.ok (), { self with cache := self.cache.insert address chunk })

/-- The callback of `advance`. -/
def fetch (self : Retrieval DataMap) (address : XorName) : Except String Bytes :=
  match self.cache[address]? with
  | some chunk => .ok chunk.content
  | none => .error (S.generic s!"missing wrapper chunk {hexEncode address.1}")

/-- Resolve a shrunk (child) data map once its wrapper chunks are present. -/
def advance (self : Retrieval DataMap) : Except String Unit × Retrieval DataMap :=
  if self.rootResolved ∨ ¬ (self.requiredAddresses S).isEmpty then (.ok (), self)
  else
    match S.getRootDataMap self.map (self.fetch S) with
    | .error e => (.error s!"failed to resolve the root data map: {e}", self)
    | .ok root => (.ok (), { self with map := root, rootResolved := true })

/-- The root map is resolved and every content chunk is held. -/
def isComplete (self : Retrieval DataMap) : Bool :=
  self.rootResolved && (self.requiredAddresses S).isEmpty

/-- One chunk of `finish`. -/
def held (self : Retrieval DataMap) (address : XorName) : Except String EncryptedChunk :=
  match self.cache[address]? with
  | some chunk => .ok chunk
  | none => .error s!"missing chunk {hexEncode address.1}"

/-- Decrypt and reassemble. -/
def finish (self : Retrieval DataMap) : Except String Bytes :=
  if ¬ self.isComplete S then .error "cannot finish: chunks missing or root map unresolved"
  else
    match (S.infos self.map).mapM self.held with
    | .error e => .error e
    | .ok chunks =>
      match S.decrypt self.map chunks with
      | .error e => .error s!"decryption failed: {e}"
      | .ok plaintext => .ok plaintext

/-- The body of the supply loop of a download: supply the fetched chunks in order
    up to the first error, and count those accepted. -/
def supplyAll (self : Retrieval DataMap) :
    List (XorName × Except String Bytes) → Except String Unit × Retrieval DataMap × ℕ
  | [] => (.ok (), self, 0)
  | (_, .error e) :: _ => (.error e, self, 0)
  | (a, .ok bytes) :: rest =>
    match self.supply S a bytes with
    | (.error e, r) => (.error e, r, 0)
    | (.ok (), r) =>
      let (result, r', n) := r.supplyAll rest
      (result, r', n + 1)

/-! ## One round -/

variable {S} {r r' : Retrieval DataMap} {n : ℕ}

theorem supply_ok {a : XorName} {bytes : Bytes} (h : r.supply S a bytes = (.ok (), r')) :
    ∃ chunk, S.verifyChunk a bytes = .ok chunk ∧
      r' = { r with cache := r.cache.insert a chunk } := by
  unfold supply at h
  split at h
  · cases h
  · rename_i chunk hc
    cases h
    exact ⟨chunk, hc, rfl⟩

/-- What a round of supplies does: the map stays, and the cache gains the verified
    chunk of every address of the round. -/
theorem supplyAll_ok {l : List (XorName × Except String Bytes)}
    (h : r.supplyAll S l = (.ok (), r', n)) :
    r'.map = r.map ∧ r'.rootResolved = r.rootResolved ∧
      (∀ a, r'.cache.contains a = true ↔ r.cache.contains a = true ∨ a ∈ l.map Prod.fst) ∧
      ∀ a chunk, r'.cache[a]? = some chunk → r.cache[a]? = some chunk ∨
        ∃ bytes, (a, .ok bytes) ∈ l ∧ S.verifyChunk a bytes = .ok chunk := by
  induction l generalizing r n with
  | nil =>
    cases h
    exact ⟨rfl, rfl, by simp, fun a chunk h => Or.inl h⟩
  | cons x l ih =>
    obtain ⟨a, e | bytes⟩ := x
    · cases h
    rw [supplyAll] at h
    split at h
    · cases h
    rename_i r₁ hs
    obtain ⟨chunk, hv, rfl⟩ := supply_ok hs
    dsimp only at h
    cases hrest : Retrieval.supplyAll S { r with cache := r.cache.insert a chunk } l with
    | mk result p =>
      obtain ⟨r₂, k⟩ := p
      rw [hrest] at h
      obtain ⟨rfl, rfl, -⟩ : result = .ok () ∧ r₂ = r' ∧ _ := by simpa using h
      obtain ⟨h1, h2, h3, h4⟩ := ih hrest
      refine ⟨h1, h2, fun b => ?_, fun b ch hb => ?_⟩
      · rw [h3, Std.HashMap.contains_insert, List.map_cons, List.mem_cons, Bool.or_eq_true,
          beq_iff_eq, eq_comm (a := b)]
        tauto
      · rcases h4 b ch hb with hr | ⟨bytes', hm, hv'⟩
        · rw [Std.HashMap.getElem?_insert] at hr
          split at hr
          · rename_i hkey
            cases eq_of_beq hkey
            exact Or.inr ⟨bytes, List.mem_cons_self, Option.some.inj hr ▸ hv⟩
          · exact Or.inl hr
        · exact Or.inr ⟨bytes', List.mem_cons_of_mem _ hm, hv'⟩

theorem mem_requiredAddresses {a : XorName} :
    a ∈ r.requiredAddresses S ↔ a ∈ S.infos r.map ∧ r.cache.contains a = false := by
  simp [requiredAddresses]

/-- After a round that was not aborted nothing is missing of the current map. -/
theorem supplyAll_requiredAddresses {results : List (Except String Bytes)}
    (hl : results.length = (r.requiredAddresses S).length)
    (h : r.supplyAll S ((r.requiredAddresses S).zip results) = (.ok (), r', n)) :
    r'.requiredAddresses S = [] := by
  obtain ⟨h1, -, h3, -⟩ := supplyAll_ok h
  rw [List.eq_nil_iff_forall_not_mem]
  intro a ha
  rw [mem_requiredAddresses, h1] at ha
  obtain ⟨hm, hc⟩ := ha
  have hn : ¬ (r'.cache.contains a = true) := by simp [hc]
  rw [h3, not_or, List.map_fst_zip (by omega), mem_requiredAddresses] at hn
  exact hn.2 ⟨hm, by simpa using hn.1⟩

theorem supplyAll_error {l : List (XorName × Except String Bytes)} {e : String}
    (h : r.supplyAll S l = (.error e, r', n)) :
    ∃ a result, (a, result) ∈ l ∧ ∀ bytes c, result = .ok bytes → S.verifyChunk a bytes ≠ .ok c := by
  induction l generalizing r n with
  | nil => cases h
  | cons x l ih =>
    obtain ⟨a, e' | bytes⟩ := x
    · exact ⟨a, .error e', List.mem_cons_self, by simp⟩
    cases hv : S.verifyChunk a bytes with
    | error e' =>
      refine ⟨a, .ok bytes, List.mem_cons_self, ?_⟩
      rintro _ c ⟨⟩ hc
      rw [hv] at hc
      cases hc
    | ok c =>
      have hs : r.supply S a bytes = (.ok (), { r with cache := r.cache.insert a c }) := by
        rw [supply, hv]
      rw [supplyAll, hs] at h
      dsimp only at h
      cases hrest : Retrieval.supplyAll S { r with cache := r.cache.insert a c } l with
      | mk result p =>
        obtain ⟨r₂, k⟩ := p
        rw [hrest] at h
        obtain ⟨rfl, rfl, -⟩ : result = .error e ∧ r₂ = r' ∧ _ := by simpa using h
        obtain ⟨a', result, hm, hres⟩ := ih hrest
        exact ⟨a', result, List.mem_cons_of_mem _ hm, hres⟩

/-! ## Termination -/

/-- A bound on the rounds a download still takes. -/
def remaining (S : SelfEncryption DataMap) (r : Retrieval DataMap) : ℕ :=
  (if r.rootResolved then 0 else 2) + if (r.requiredAddresses S).isEmpty then 0 else 1

theorem advance_ok (hn : r.requiredAddresses S = []) (h : r.advance S = (.ok (), r')) :
    r'.rootResolved = true ∧ (r.rootResolved = true → r' = r) := by
  unfold advance at h
  split at h
  · rename_i hr
    cases h
    exact ⟨hr.resolve_right (by simp [hn]), fun _ => rfl⟩
  · rename_i hr
    rw [not_or] at hr
    split at h
    · cases h
    · cases h
      exact ⟨rfl, fun h => absurd h hr.1⟩

/-- **A round makes progress**: it leaves fewer rounds to do. -/
theorem remaining_lt {r₁ r₂ : Retrieval DataMap} {results : List (Except String Bytes)}
    (hc : ¬ r.isComplete S = true) (hl : results.length = (r.requiredAddresses S).length)
    (hs : r.supplyAll S ((r.requiredAddresses S).zip results) = (.ok (), r₁, n))
    (ha : r₁.advance S = (.ok (), r₂)) : r₂.remaining S < r.remaining S := by
  have hn := supplyAll_requiredAddresses hl hs
  obtain ⟨-, hroot, -⟩ := supplyAll_ok hs
  obtain ⟨h1, h2⟩ := advance_ok hn ha
  rw [isComplete, Bool.and_eq_true, not_and] at hc
  unfold remaining
  by_cases hr : r.rootResolved = true
  · rw [h2 (hroot ▸ hr), if_pos (hroot ▸ hr), if_pos hr, if_pos (by simp [hn]),
      if_neg (hc hr)]
    omega
  · rw [if_pos h1, if_neg hr]
    split <;> omega

/-! ## The outcome of a retrieval -/

variable (S)

/-- What the callback of `advance` answers once exactly the chunks `as` are held. -/
def fetchHeld (chunk : XorName → EncryptedChunk) (as : List XorName) (address : XorName) :
    Except String Bytes :=
  if address ∈ as then .ok (chunk address).content
  else .error (S.generic s!"missing wrapper chunk {hexEncode address.1}")

/-- The root map of `map`, if `chunk` is what each address stands for. -/
def resolve (chunk : XorName → EncryptedChunk) (map : DataMap) : Except String DataMap :=
  if S.isChild map then
    match S.getRootDataMap map (fetchHeld S chunk (S.infos map)) with
    | .error e => .error s!"failed to resolve the root data map: {e}"
    | .ok root => .ok root
  else .ok map

/-- The plaintext of `map`, if `chunk` is what each address stands for. -/
def outcome (chunk : XorName → EncryptedChunk) (map : DataMap) : Except String Bytes :=
  match resolve S chunk map with
  | .error e => .error e
  | .ok root =>
    match S.decrypt root ((S.infos root).map chunk) with
    | .error e => .error s!"decryption failed: {e}"
    | .ok plaintext => .ok plaintext

/-- A retrieval started from `map₀` that holds no other chunks than `chunk` says:
    before the root map is resolved only chunks of `map₀`. -/
structure Fits (chunk : XorName → EncryptedChunk) (map₀ : DataMap) (r : Retrieval DataMap) :
    Prop where
  cache : ∀ a c, r.cache[a]? = some c → c = chunk a
  child : r.rootResolved = false → r.map = map₀ ∧ S.isChild map₀ = true ∧
    ∀ a, r.cache.contains a = true → a ∈ S.infos map₀
  root : r.rootResolved = true → resolve S chunk map₀ = .ok r.map

variable {S} {chunk : XorName → EncryptedChunk} {map₀ : DataMap}

theorem fetchHeld_of_mem {as : List XorName} {a : XorName} (h : a ∈ as) :
    fetchHeld S chunk as a = .ok (chunk a).content := if_pos h

theorem fetchHeld_of_not_mem {as : List XorName} {a : XorName} (h : a ∉ as) :
    fetchHeld S chunk as a = .error (S.generic s!"missing wrapper chunk {hexEncode a.1}") := if_neg h

/-- The root map depends on the chunks of the map only. -/
theorem resolve_congr {chunk' : XorName → EncryptedChunk} {map : DataMap}
    (h : ∀ a ∈ S.infos map, chunk a = chunk' a) : resolve S chunk map = resolve S chunk' map := by
  have hf : fetchHeld S chunk (S.infos map) = fetchHeld S chunk' (S.infos map) := by
    funext a
    unfold fetchHeld
    split
    · rename_i ha
      rw [h a ha]
    · rfl
  rw [resolve, resolve, hf]

theorem start_fits {address : XorName} {bytes : Bytes} (h : start S address bytes = .ok r) :
    S.fromSlice bytes = .ok r.map ∧ r.Fits S chunk r.map := by
  unfold start at h
  split at h
  · cases h
  split at h
  · cases h
  rename_i map hmap
  cases h
  refine ⟨hmap, by simp, fun hr => ⟨rfl, by simpa using hr, by simp⟩, fun hr => ?_⟩
  rw [resolve, if_neg (by simpa using hr)]

/-- A chunk that is not missing is held. -/
theorem getElem?_of_contains (h : r.Fits S chunk map₀) {a : XorName}
    (ha : r.cache.contains a = true) : r.cache[a]? = some (chunk a) := by
  rw [Std.HashMap.contains_eq_isSome_getElem?, Option.isSome_iff_exists] at ha
  obtain ⟨c, hc⟩ := ha
  rw [hc, h.cache a c hc]

theorem contains_of_requiredAddresses (h : r.requiredAddresses S = []) {a : XorName}
    (ha : a ∈ S.infos r.map) : r.cache.contains a = true := by
  by_contra hc
  have hr : a ∈ r.requiredAddresses S := mem_requiredAddresses.2 ⟨ha, by simpa using hc⟩
  rw [h] at hr
  cases hr

theorem Fits.supplyAll (h : r.Fits S chunk map₀) {results : List (Except String Bytes)}
    (hl : results.length = (r.requiredAddresses S).length)
    (hv : ∀ a bytes c, (a, .ok bytes) ∈ (r.requiredAddresses S).zip results →
      S.verifyChunk a bytes = .ok c → c = chunk a)
    (hs : r.supplyAll S ((r.requiredAddresses S).zip results) = (.ok (), r', n)) :
    r'.Fits S chunk map₀ ∧ r'.requiredAddresses S = [] := by
  obtain ⟨h1, h2, h3, h4⟩ := supplyAll_ok hs
  refine ⟨⟨fun a c hc => ?_, fun hr => ?_, fun hr => ?_⟩, supplyAll_requiredAddresses hl hs⟩
  · rcases h4 a c hc with hc | ⟨bytes, hm, hc⟩
    · exact h.cache a c hc
    · exact hv a bytes c hm hc
  · obtain ⟨hm, hch, hk⟩ := h.child (h2 ▸ hr)
    refine ⟨h1 ▸ hm, hch, fun a ha => ?_⟩
    rw [h3, List.map_fst_zip (by omega), mem_requiredAddresses, hm] at ha
    exact ha.elim (hk a) And.left
  · exact h1 ▸ h.root (h2 ▸ hr)

/-- Once its chunks are there, a child map is resolved with these chunks. -/
theorem Fits.fetch_eq (h : r.Fits S chunk map₀) (hr : r.rootResolved = false)
    (hn : r.requiredAddresses S = []) : r.fetch S = fetchHeld S chunk (S.infos map₀) := by
  obtain ⟨hm, -, hk⟩ := h.child hr
  funext a
  unfold fetch fetchHeld
  by_cases ha : a ∈ S.infos map₀
  · rw [if_pos ha, getElem?_of_contains h (contains_of_requiredAddresses hn (hm ▸ ha))]
  · have hc : r.cache[a]? = none := Std.HashMap.getElem?_eq_none (mt (hk a) ha)
    rw [if_neg ha, hc]

theorem Fits.advance_eq (h : r.Fits S chunk map₀) (hr : r.rootResolved = false)
    (hn : r.requiredAddresses S = []) :
    r.advance S = match resolve S chunk map₀ with
      | .error e => (.error e, r)
      | .ok root => (.ok (), { r with map := root, rootResolved := true }) := by
  obtain ⟨hm, hch, -⟩ := h.child hr
  rw [Retrieval.advance, if_neg (by simp [hr, hn]), h.fetch_eq hr hn, hm, resolve, if_pos hch]
  cases S.getRootDataMap map₀ (fetchHeld S chunk (S.infos map₀)) <;> rfl

/-- `advance` fails only if the first map has no root. -/
theorem Fits.advance_error (h : r.Fits S chunk map₀) (hn : r.requiredAddresses S = [])
    {e : String} (ha : r.advance S = (.error e, r')) : resolve S chunk map₀ = .error e := by
  have hr : r.rootResolved = false := by
    by_contra hr
    rw [Retrieval.advance, if_pos (Or.inl (by simpa using hr))] at ha
    cases ha
  rw [h.advance_eq hr hn] at ha
  cases hres : resolve S chunk map₀ with
  | error e' =>
    rw [hres] at ha
    cases ha
    rfl
  | ok root =>
    rw [hres] at ha
    cases ha

/-- **`advance`** keeps a retrieval with all chunks of its map in step. -/
theorem Fits.advance_ok (h : r.Fits S chunk map₀) (hn : r.requiredAddresses S = [])
    (ha : r.advance S = (.ok (), r')) : r'.Fits S chunk map₀ := by
  by_cases hr : r.rootResolved = true
  · rw [(Retrieval.advance_ok hn ha).2 hr]
    exact h
  · rw [h.advance_eq (by simpa using hr) hn] at ha
    cases hres : resolve S chunk map₀ with
    | error e =>
      rw [hres] at ha
      cases ha
    | ok root =>
      rw [hres] at ha
      cases ha
      exact ⟨h.cache, by simp, fun _ => hres⟩

theorem mapM_ok {ε α β : Type} {f : α → Except ε β} {g : α → β} {l : List α}
    (h : ∀ a ∈ l, f a = .ok (g a)) : l.mapM f = .ok (l.map g) := by
  induction l with
  | nil => rfl
  | cons a l ih =>
    rw [List.mapM_cons, h a List.mem_cons_self, ih fun b hb => h b (List.mem_cons_of_mem _ hb)]
    rfl

/-- **`finish`** on a complete retrieval: the plaintext of the first map. -/
theorem Fits.finish (h : r.Fits S chunk map₀) (hc : r.isComplete S = true) :
    r.finish S = outcome S chunk map₀ := by
  have hc' := hc
  rw [isComplete, Bool.and_eq_true, List.isEmpty_iff] at hc'
  have hheld : ∀ a ∈ S.infos r.map, r.held a = .ok (chunk a) := by
    intro a ha
    rw [held, getElem?_of_contains h (contains_of_requiredAddresses hc'.2 ha)]
  rw [Retrieval.finish, if_neg (by simp [hc]), mapM_ok hheld, outcome, h.root hc'.1]

end Retrieval

/-- The chunk an address stands for, if it stands for the bytes `serve` says. -/
def chunkOf (S : SelfEncryption DataMap) (serve : XorName → Bytes) (address : XorName) :
    EncryptedChunk :=
  match S.verifyChunk address (serve address) with
  | .ok chunk => chunk
  | .error _ => ⟨serve address⟩

/-- The file at an address, if each address stands for the bytes `serve` says. -/
def downloadOutcome (S : SelfEncryption DataMap) (serve : XorName → Bytes) (address : XorName) :
    Except String Bytes :=
  match Retrieval.start S address (serve address) with
  | .error e => .error e
  | .ok retrieval => Retrieval.outcome S (chunkOf S serve) retrieval.map

/-! ## An instance -/

/-- Follow the levels of a map, fetching the chunk of each. -/
def SelfEncryption.levels (fetch : XorName → Except String Bytes) :
    List XorName → Except String (List XorName)
  | a :: b :: map =>
    match fetch a with
    | .error e => .error e
    | .ok _ => levels fetch (b :: map)
  | map => .ok map

/-- A self-encryption to evaluate the model on: a map lists the chunk of each of its
    levels, the last of which is the file itself. -/
def SelfEncryption.transparent : SelfEncryption (List XorName) where
  infos map := map.take 1
  isChild map := decide (1 < map.length)
  verifyChunk a bytes := if first32 bytes = a then .ok ⟨bytes⟩ else .error "wrong content"
  decrypt _ chunks := .ok (chunks.flatMap EncryptedChunk.content)
  getRootDataMap map fetch := levels fetch map
  encrypt data := .ok ([first32 data], [⟨data⟩])
  shrinkDataMap map :=
    let bytes := Postcard.vec Subtype.val map
    .ok ([(first32 bytes, bytes)], first32 bytes :: map)
  toVec map := if map.length < 2 ^ 32 then .ok (Postcard.vec Subtype.val map) else .error "too large"
  fromSlice bytes :=
    match Postcard.fromBytes (Postcard.readVec (Parser.arr 32)) bytes with
    | some map => .ok map
    | none => .error "no data map"
  generic e := e

theorem SelfEncryption.transparent_fromSlice {map : List XorName} (h : map.length < 2 ^ 32) :
    SelfEncryption.transparent.fromSlice (Postcard.vec Subtype.val map) = .ok map := by
  have hr : (Postcard.readVec (Parser.arr 32)).Reads (Postcard.vec Subtype.val map) map :=
    Postcard.readVec_reads h fun a _ => Parser.Reads.arr a
  simp only [SelfEncryption.transparent, Postcard.fromBytes_reads hr]

/-- The address of a serialized map. -/
def mapAddress (map : List XorName) : XorName := first32 (Postcard.vec Subtype.val map)

/-- A file stored as `map`: an address stands for the serialized map, or for itself. -/
def serveMap (map : List XorName) (address : XorName) : Bytes :=
  if address = mapAddress map then Postcard.vec Subtype.val map else address.1

theorem length_serveMap_le (map : List XorName) (address : XorName) :
    (serveMap map address).length ≤ 32 * map.length + 37 := by
  unfold serveMap
  split
  · have hle : ∀ a ∈ map, a.1.length ≤ 32 := fun a _ => a.2.le
    have := Postcard.length_vec_le hle
    omega
  · rw [address.2]
    omega

theorem first32_serveMap (map : List XorName) (address : XorName) :
    first32 (serveMap map address) = address := by
  unfold serveMap
  split
  · rename_i h
    exact h.symm
  · exact first32_val address

theorem SelfEncryption.transparent_start {map : List XorName} (h : map.length < 2 ^ 32) :
    Retrieval.start .transparent (mapAddress map) (Postcard.vec Subtype.val map) =
      .ok ⟨map, !SelfEncryption.transparent.isChild map, ∅⟩ := by
  have hv : SelfEncryption.transparent.verifyChunk (mapAddress map) (Postcard.vec Subtype.val map) =
      .ok ⟨Postcard.vec Subtype.val map⟩ := if_pos rfl
  rw [Retrieval.start, hv, SelfEncryption.transparent_fromSlice h]

theorem downloadOutcome_serveMap {map : List XorName} (h : map.length < 2 ^ 32) :
    downloadOutcome .transparent (serveMap map) (mapAddress map) =
      Retrieval.outcome .transparent (chunkOf .transparent (serveMap map)) map := by
  have hserve : serveMap map (mapAddress map) = Postcard.vec Subtype.val map := if_pos rfl
  rw [downloadOutcome, hserve, SelfEncryption.transparent_start h]

/-! ## Any sequence of operations -/

inductive RetrievalOp
  | supply (address : XorName) (bytes : Bytes)
  | advance

def Retrieval.apply (self : Retrieval DataMap) : RetrievalOp → Except String Unit × Retrieval DataMap
  | .supply address bytes => self.supply S address bytes
  | .advance => self.advance S

/-- The retrieval after `ops`, whatever they returned. -/
def Retrieval.applyAll (self : Retrieval DataMap) (ops : List RetrievalOp) : Retrieval DataMap :=
  ops.foldl (fun r op => (r.apply S op).2) self

/-- `verify_chunk` accepts exactly the bytes that hash to the address. -/
def SelfEncryption.Verifying (C : Crates) : Prop :=
  ∀ a bytes chunk, S.verifyChunk a bytes = .ok chunk ↔ C.blake3 bytes = a ∧ chunk = ⟨bytes⟩

variable {S} {C : Crates} {r : Retrieval DataMap}

/-- What an operation does: it fails and changes nothing, it adds a verified chunk, or it
    leaves the root map resolved without touching the cache. -/
theorem Retrieval.apply_cases (hS : S.Verifying C) (r : Retrieval DataMap) (op : RetrievalOp) :
    (r.apply S op).2 = r ∨
      (∃ bytes, r.apply S op =
        (.ok (), { r with cache := r.cache.insert (C.blake3 bytes) ⟨bytes⟩ })) ∨
      (r.rootResolved = false ∧ ∃ root,
        r.apply S op = (.ok (), { r with map := root, rootResolved := true })) := by
  cases op with
  | supply address bytes =>
    simp only [Retrieval.apply, Retrieval.supply]
    cases hv : S.verifyChunk address bytes with
    | error e => exact Or.inl rfl
    | ok chunk =>
      obtain ⟨rfl, rfl⟩ := (hS _ _ _).1 hv
      exact Or.inr (Or.inl ⟨bytes, rfl⟩)
  | advance =>
    simp only [Retrieval.apply, Retrieval.advance]
    by_cases hr : r.rootResolved ∨ ¬ (r.requiredAddresses S).isEmpty
    · rw [if_pos hr]
      exact Or.inl rfl
    · rw [if_neg hr]
      rw [not_or] at hr
      cases S.getRootDataMap r.map (r.fetch S) with
      | error e => exact Or.inl rfl
      | ok root => exact Or.inr (Or.inr ⟨by simpa using hr.1, root, rfl⟩)

/-- Every entry of the cache hashes to its key. -/
def Retrieval.Hashed (C : Crates) (r : Retrieval DataMap) : Prop :=
  ∀ a chunk, r.cache[a]? = some chunk → C.blake3 chunk.content = a

theorem Retrieval.Hashed.apply (hS : S.Verifying C) (h : r.Hashed C) (op : RetrievalOp) :
    (r.apply S op).2.Hashed C := by
  rcases r.apply_cases hS op with hop | ⟨bytes, hop⟩ | ⟨-, root, hop⟩
  · rw [hop]
    exact h
  · rw [hop]
    intro a chunk ha
    simp only [Std.HashMap.getElem?_insert] at ha
    split at ha
    · rename_i hkey
      cases ha
      exact eq_of_beq hkey
    · exact h a chunk ha
  · rw [hop]
    exact h

theorem Retrieval.rootResolved_apply (hS : S.Verifying C) (h : r.rootResolved = true)
    (op : RetrievalOp) : (r.apply S op).2.rootResolved = true := by
  rcases r.apply_cases hS op with hop | ⟨bytes, hop⟩ | ⟨hr, -⟩
  · rw [hop, h]
  · rw [hop]
    exact h
  · rw [h] at hr
    cases hr

/-- Once complete, the map is the root map for good, and the cache only grows. -/
theorem Retrieval.isComplete_apply (hS : S.Verifying C) (h : r.isComplete S = true)
    (op : RetrievalOp) : (r.apply S op).2.isComplete S = true := by
  have hc := h
  rw [Retrieval.isComplete, Bool.and_eq_true, List.isEmpty_iff] at hc
  rcases r.apply_cases hS op with hop | ⟨bytes, hop⟩ | ⟨hr, -⟩
  · rw [hop, h]
  · rw [hop, Retrieval.isComplete, Bool.and_eq_true, List.isEmpty_iff, List.eq_nil_iff_forall_not_mem]
    refine ⟨hc.1, fun a ha => ?_⟩
    obtain ⟨hm, hnot⟩ := Retrieval.mem_requiredAddresses.1 ha
    simp only [Std.HashMap.contains_insert, Bool.or_eq_false_iff] at hnot
    have hheld := Retrieval.contains_of_requiredAddresses hc.2 hm
    rw [hheld] at hnot
    cases hnot.2
  · rw [hc.1] at hr
    cases hr

/-- What every operation preserves, any sequence of operations preserves. -/
theorem Retrieval.applyAll_preserves {P : Retrieval DataMap → Prop}
    (hP : ∀ r op, P r → P (r.apply S op).2) : ∀ ops r, P r → P (r.applyAll S ops) := by
  intro ops
  induction ops with
  | nil =>
    intro r h
    exact h
  | cons op ops ih =>
    intro r h
    exact ih _ (hP r op h)

/-- **The invariants of a retrieval**, after any operations: the cache holds what its keys
    hash; a failed operation changes nothing; a resolved root map stays resolved, and a
    complete retrieval stays complete. -/
theorem retrieval_invariants (hS : S.Verifying C) {address : XorName} {bytes : Bytes}
    {r₀ : Retrieval DataMap} (h : Retrieval.start S address bytes = .ok r₀) (ops : List RetrievalOp) :
    (r₀.applyAll S ops).Hashed C ∧
    (∀ op e, ((r₀.applyAll S ops).apply S op).1 = .error e →
      ((r₀.applyAll S ops).apply S op).2 = r₀.applyAll S ops) ∧
    (∀ ops', (r₀.applyAll S ops).rootResolved = true →
      ((r₀.applyAll S ops).applyAll S ops').rootResolved = true) ∧
    ∀ ops', (r₀.applyAll S ops).isComplete S = true →
      ((r₀.applyAll S ops).applyAll S ops').isComplete S = true := by
  refine ⟨?_, ?_, ?_, ?_⟩
  · refine Retrieval.applyAll_preserves (fun r op hr => hr.apply hS op) ops r₀ ?_
    intro a chunk ha
    unfold Retrieval.start at h
    split at h
    · cases h
    · split at h
      · cases h
      · cases h
        simp at ha
  · intro op e he
    rcases (r₀.applyAll S ops).apply_cases hS op with hop | ⟨b, hop⟩ | ⟨-, root, hop⟩
    · exact hop
    · rw [hop] at he
      cases he
    · rw [hop] at he
      cases he
  · intro ops' hr
    exact Retrieval.applyAll_preserves (P := fun r => r.rootResolved = true)
      (fun r op hr => Retrieval.rootResolved_apply hS hr op) ops' _ hr
  · intro ops' hr
    exact Retrieval.applyAll_preserves (P := fun r => r.isComplete S = true)
      (fun r op hr => Retrieval.isComplete_apply hS hr op) ops' _ hr

theorem SelfEncryption.transparent_verifying : SelfEncryption.transparent.Verifying .transparent := by
  intro a bytes chunk
  simp only [SelfEncryption.transparent, Crates.transparent]
  by_cases h : first32 bytes = a
  · rw [if_pos h]
    simp [h, eq_comm]
  · rw [if_neg h]
    simp [h]

/-- A map of two levels: a useless supply, an early `advance`, and then all that is
    needed. -/
theorem retrieval_invariants_twoLevels :
    ∃ r₀, Retrieval.start .transparent (mapAddress [first32 [1], first32 [2]])
        (Postcard.vec Subtype.val [first32 [1], first32 [2]]) = .ok r₀ ∧
      (r₀.applyAll .transparent [.supply (first32 [9]) [9], .advance, .supply (first32 [1]) [1],
        .advance, .supply (first32 [2]) [2]]).Hashed .transparent := by
  refine ⟨_, SelfEncryption.transparent_start (by simp), ?_⟩
  exact (retrieval_invariants SelfEncryption.transparent_verifying
    (SelfEncryption.transparent_start (by simp)) _).1

end AntClient
