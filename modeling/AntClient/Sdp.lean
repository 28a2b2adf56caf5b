/-
  The session descriptions of a connection (`sdp.rs`).

  The browser's offer gets the client's own credentials, and the node's answer is made
  up locally.

  * `mungeOffer_eq`: the loop of `munge_offer`, as a map over the lines of the offer.
  * `mungeOffer_complete_iff`: when an offer that is accepted has both credentials.
  * `mungeOffer_munge`: munging only touches the credentials, and the last one wins.
-/
import AntClient.Framing
import AntClient.Text
import AntClient.Lib.Lines

namespace AntClient

open Lines

/-! ## The offer -/

def iceUfrag : List Char := "a=ice-ufrag:".toList
def icePwd : List Char := "a=ice-pwd:".toList

theorem iceUfrag_eq : iceUfrag = ['a', '=', 'i', 'c', 'e', '-', 'u', 'f', 'r', 'a', 'g', ':'] :=
  rfl

theorem icePwd_eq : icePwd = ['a', '=', 'i', 'c', 'e', '-', 'p', 'w', 'd', ':'] := rfl

/-- One line of the loop of `munge_offer`: the text so far and the number of lines
    replaced. -/
def mungeLine (ufrag : List Char) (acc : List Char × ℕ) (line : List Char) : List Char × ℕ :=
  let line := stripCr line
  if line = [] then acc
  else if iceUfrag.isPrefixOf line then
    (acc.1 ++ (iceUfrag ++ ufrag) ++ ['\r', '\n'], acc.2 + 1)
  else if icePwd.isPrefixOf line then
    (acc.1 ++ (icePwd ++ ufrag) ++ ['\r', '\n'], acc.2 + 1)
  else (acc.1 ++ line ++ ['\r', '\n'], acc.2)

/-- Replace the ICE credentials of an offer. -/
def mungeOffer (sdp ufrag : String) : Except String String :=
  let (out, replaced) := (sdp.toList.splitOn '\n').foldl (mungeLine ufrag.toList) ([], 0)
  if replaced ≠ 2 then
    .error s!"SDP offer missing ice-ufrag/ice-pwd (replaced {replaced})"
  else .ok (.ofList out)

/-! ## The answer -/

/-- The server's answer: ICE-lite and DTLS-passive. -/
def serverAnswer (ip : String) (port : UInt16) (ufrag fingerprintColon : String) : String :=
  let v := if ip.toList.contains ':' then "IP6" else "IP4"
  .ofList (join ([
    "v=0",
    s!"o=- 0 0 IN {v} {ip}",
    "s=-",
    "t=0 0",
    "a=ice-lite",
    s!"m=application {port} UDP/DTLS/SCTP webrtc-datachannel",
    s!"c=IN {v} {ip}",
    "a=mid:0",
    "a=ice-options:ice2",
    s!"a=ice-ufrag:{ufrag}",
    s!"a=ice-pwd:{ufrag}",
    s!"a=fingerprint:sha-256 {fingerprintColon}",
    "a=setup:passive",
    "a=sctp-port:5000",
    "a=max-message-size:5242880",
    s!"a=candidate:1467250027 1 UDP 1467250027 {ip} {port} typ host",
    "a=end-of-candidates"].map String.toList))

/-- `str::to_uppercase`, where `upper` is the uppercase of a character that is not ASCII. -/
def toUppercase (upper : Char → List Char) (text : String) : List Char :=
  text.toList.flatMap fun c => if c.toNat < 128 then [c.toUpper] else upper c

/-- A hex fingerprint as `AA:BB:…`. -/
def fingerprintToColonForm (upper : Char → List Char) (hexFp : String) : String :=
  .ofList ([':'].intercalate ((chunks 2 (Postcard.utf8 hexFp)).map fun c =>
    toUppercase upper ((String.fromUTF8? ⟨c.toArray⟩).getD "")))

/-- The answer that `Transport::connect` sets as the remote description. -/
def connectAnswer (upper : Char → List Char) (ip : String) (port : UInt16)
    (fingerprintHex ufrag : String) : String :=
  serverAnswer ip port ufrag (fingerprintToColonForm upper fingerprintHex)

/-! ## Munging -/

/-- A line that carries a credential. -/
def isCredential (line : List Char) : Bool := iceUfrag.isPrefixOf line || icePwd.isPrefixOf line

/-- A line with its credential replaced. -/
def munged (ufrag line : List Char) : List Char :=
  if iceUfrag.isPrefixOf line then iceUfrag ++ ufrag
  else if icePwd.isPrefixOf line then icePwd ++ ufrag
  else line

section
variable {u v line : List Char}

theorem isPrefixOf_append_self (tag rest : List Char) : tag.isPrefixOf (tag ++ rest) = true :=
  List.isPrefixOf_iff_prefix.2 (List.prefix_append tag rest)

/-- A line carries one credential at most. -/
theorem not_icePwd (h : iceUfrag.isPrefixOf line = true) : icePwd.isPrefixOf line = false := by
  obtain ⟨rest, rfl⟩ := List.isPrefixOf_iff_prefix.1 h
  rfl

theorem munged_eq_self (h : isCredential line = false) : munged u line = line := by
  rw [isCredential, Bool.or_eq_false_iff] at h
  rw [munged, if_neg (by simp [h.1]), if_neg (by simp [h.2])]

theorem munged_ufrag (h : iceUfrag.isPrefixOf line = true) : munged u line = iceUfrag ++ u :=
  if_pos h

theorem munged_pwd (h : icePwd.isPrefixOf line = true) : munged u line = icePwd ++ u := by
  rw [munged, if_neg ?_, if_pos h]
  intro h'
  rw [not_icePwd h'] at h
  cases h

/-- A line carries a user name, a password or no credential. -/
theorem credential_cases (line : List Char) : iceUfrag.isPrefixOf line = true ∨
    icePwd.isPrefixOf line = true ∨ isCredential line = false := by
  by_cases h1 : iceUfrag.isPrefixOf line
  · exact Or.inl h1
  · by_cases h2 : icePwd.isPrefixOf line
    · exact Or.inr (Or.inl h2)
    · refine Or.inr (Or.inr ?_)
      rw [isCredential, Bool.eq_false_iff.2 h1, Bool.eq_false_iff.2 h2]
      rfl

theorem isCredential_ufrag (h : iceUfrag.isPrefixOf line = true) : isCredential line = true := by
  rw [isCredential, h, Bool.true_or]

theorem isCredential_pwd (h : icePwd.isPrefixOf line = true) : isCredential line = true := by
  rw [isCredential, h, Bool.or_true]

theorem isCredential_munged : isCredential (munged u line) = isCredential line := by
  rcases credential_cases line with h | h | h
  · rw [munged_ufrag h, isCredential_ufrag h, isCredential_ufrag (isPrefixOf_append_self _ _)]
  · rw [munged_pwd h, isCredential_pwd h, isCredential_pwd (isPrefixOf_append_self _ _)]
  · rw [munged_eq_self h]

/-- The last credential wins. -/
theorem munged_munged : munged v (munged u line) = munged v line := by
  rcases credential_cases line with h | h | h
  · rw [munged_ufrag h, munged_ufrag h, munged_ufrag (isPrefixOf_append_self _ _)]
  · rw [munged_pwd h, munged_pwd h, munged_pwd (isPrefixOf_append_self _ _)]
  · rw [munged_eq_self h]

theorem munged_line (hu : '\n' ∉ u) (h : '\n' ∉ line ∧ line ≠ []) :
    '\n' ∉ munged u line ∧ munged u line ≠ [] := by
  rcases credential_cases line with hl | hl | hl
  · rw [munged_ufrag hl]
    simp [iceUfrag_eq, hu]
  · rw [munged_pwd hl]
    simp [icePwd_eq, hu]
  · rwa [munged_eq_self hl]

end

/-- **The loop of `munge_offer`** over the lines of the offer. -/
theorem mungeLine_foldl (u : List Char) (pieces : List (List Char)) (acc : List Char × ℕ) :
    pieces.foldl (mungeLine u) acc =
      (acc.1 ++ join (((pieces.map stripCr).filter (· ≠ [])).map (munged u)),
        acc.2 + ((pieces.map stripCr).filter (· ≠ [])).countP isCredential) := by
  induction pieces generalizing acc with
  | nil => simp
  | cons piece pieces ih =>
    rw [List.foldl_cons, ih, mungeLine, List.map_cons]
    by_cases hne : stripCr piece = []
    · rw [if_pos hne, List.filter_cons_of_neg (by simp [hne])]
    rw [if_neg hne, List.filter_cons_of_pos (by simp [hne]), List.map_cons, join_cons,
      List.countP_cons]
    by_cases h1 : iceUfrag.isPrefixOf (stripCr piece)
    · rw [if_pos h1, munged, if_pos h1, isCredential, h1]
      simp [Nat.add_assoc, Nat.add_comm]
    · by_cases h2 : icePwd.isPrefixOf (stripCr piece)
      · rw [if_neg h1, if_pos h2, munged, if_neg h1, if_pos h2, isCredential, h2]
        simp [Nat.add_assoc, Nat.add_comm]
      · rw [if_neg h1, if_neg h2, munged, if_neg h1, if_neg h2, isCredential,
          Bool.eq_false_iff.2 h1, Bool.eq_false_iff.2 h2]
        simp

/-- **What `munge_offer` returns**: the lines with their credentials replaced, if there are
    two of them. -/
theorem mungeOffer_eq (sdp ufrag : String) : mungeOffer sdp ufrag =
    if (split sdp.toList).countP isCredential = 2 then
      .ok (.ofList (join ((split sdp.toList).map (munged ufrag.toList))))
    else .error s!"SDP offer missing ice-ufrag/ice-pwd (replaced {(split sdp.toList).countP isCredential})" := by
  rw [mungeOffer, mungeLine_foldl, ← split]
  dsimp only
  rw [ite_not, List.nil_append, Nat.zero_add]

/-! ## Incomplete offers -/

theorem countP_isCredential (lines : List (List Char)) : lines.countP isCredential =
    lines.countP (iceUfrag.isPrefixOf ·) + lines.countP (icePwd.isPrefixOf ·) := by
  induction lines with
  | nil => rfl
  | cons line lines ih =>
    rw [List.countP_cons, List.countP_cons, List.countP_cons, ih, isCredential]
    by_cases h : iceUfrag.isPrefixOf line
    · rw [h, not_icePwd h]
      simp only [Bool.or_false, if_true, Bool.false_eq_true, if_false]
      omega
    · rw [Bool.eq_false_iff.2 h, Bool.false_or]
      simp only [Bool.false_eq_true, if_false]
      omega

theorem countP_credentials (sdp : String) : (split sdp.toList).countP isCredential =
    (tagged iceUfrag sdp.toList).length + (tagged icePwd sdp.toList).length := by
  rw [countP_isCredential, List.countP_eq_length_filter, List.countP_eq_length_filter]
  rfl

/-- **When accepted offers are complete**: just if the offer does not have two lines of one
    credential and none of the other. -/
theorem mungeOffer_complete_iff (sdp ufrag : String) :
    ((∀ munged, mungeOffer sdp ufrag = .ok munged →
        tagged iceUfrag sdp.toList ≠ [] ∧ tagged icePwd sdp.toList ≠ []) ∧
      (tagged iceUfrag sdp.toList = [] ∨ tagged icePwd sdp.toList = [] →
        ∃ e, mungeOffer sdp ufrag = .error e)) ↔
    ¬ ((tagged iceUfrag sdp.toList).length = 2 ∧ tagged icePwd sdp.toList = [] ∨
      tagged iceUfrag sdp.toList = [] ∧ (tagged icePwd sdp.toList).length = 2) := by
  rw [mungeOffer_eq, countP_credentials]
  generalize tagged iceUfrag sdp.toList = U, tagged icePwd sdp.toList = P
  by_cases hsum : U.length + P.length = 2
  · rw [if_pos hsum]
    constructor
    · rintro ⟨h, -⟩ hone
      obtain ⟨hU, hP⟩ := h _ rfl
      rcases hone with ⟨-, h⟩ | ⟨h, -⟩
      · exact hP h
      · exact hU h
    · intro hone
      have hboth : U ≠ [] ∧ P ≠ [] := by
        constructor
        · rintro rfl
          exact hone (Or.inr ⟨rfl, by simpa using hsum⟩)
        · rintro rfl
          exact hone (Or.inl ⟨by simpa using hsum, rfl⟩)
      refine ⟨fun _ _ => hboth, ?_⟩
      rintro (h | h)
      · exact absurd h hboth.1
      · exact absurd h hboth.2
  · rw [if_neg hsum]
    constructor
    · rintro - (⟨hU, rfl⟩ | ⟨rfl, hP⟩)
      · exact hsum (by simpa using hU)
      · exact hsum (by simpa using hP)
    · intro _
      exact ⟨nofun, fun _ => ⟨_, rfl⟩⟩

/-- Two user names and no password are accepted. -/
theorem mungeOffer_incomplete : tagged icePwd "a=ice-ufrag:x\na=ice-ufrag:y\n".toList = [] ∧
    mungeOffer "a=ice-ufrag:x\na=ice-ufrag:y\n" "z" =
      .ok "a=ice-ufrag:z\r\na=ice-ufrag:z\r\n" := by
  constructor
  · rfl
  · rfl

/-! ## Munging twice -/

/-- A line that carries a credential carries the new one. -/
theorem munged_credential {u line : List Char} :
    (iceUfrag.isPrefixOf (munged u line) = true → munged u line = iceUfrag ++ u) ∧
      (icePwd.isPrefixOf (munged u line) = true → munged u line = icePwd ++ u) := by
  constructor
  · intro h
    have hlast := munged_ufrag (u := u) h
    rwa [munged_munged] at hlast
  · intro h
    have hlast := munged_pwd (u := u) h
    rwa [munged_munged] at hlast

theorem filter_munged (u : List Char) (lines : List (List Char)) :
    (lines.map (munged u)).filter (fun line => !isCredential line) =
      lines.filter (fun line => !isCredential line) := by
  induction lines with
  | nil => rfl
  | cons line lines ih =>
    rw [List.map_cons]
    cases h : isCredential line with
    | true => rw [List.filter_cons_of_neg (by simp [isCredential_munged, h]), ih,
        List.filter_cons_of_neg (by simp [h])]
    | false => rw [munged_eq_self h, List.filter_cons_of_pos (by simp [h]), ih,
        List.filter_cons_of_pos (by simp [h])]

/-- **Munging only touches the credentials**, and the last one wins. -/
theorem mungeOffer_munge {s u t : String} (hu : '\n' ∉ u.toList) (h : mungeOffer s u = .ok t) :
    (∀ v, mungeOffer t v = mungeOffer s v) ∧
    (∀ line ∈ split t.toList,
      (iceUfrag.isPrefixOf line = true → line = iceUfrag ++ u.toList) ∧
      (icePwd.isPrefixOf line = true → line = icePwd ++ u.toList)) ∧
    (split t.toList).filter (fun line => !isCredential line) =
      (split s.toList).filter (fun line => !isCredential line) ∧
    t.toList = join (split t.toList) := by
  rw [mungeOffer_eq] at h
  split at h
  · rename_i hcount
    cases h
    have hlines : split (join ((split s.toList).map (munged u.toList))) =
        (split s.toList).map (munged u.toList) := by
      refine split_join (List.forall_mem_map.2 fun line hline => ?_)
      exact munged_line hu (mem_split hline)
    have hcred : isCredential ∘ munged u.toList = isCredential :=
      funext fun line => isCredential_munged
    have hlast : ∀ v, munged v ∘ munged u.toList = munged v :=
      fun v => funext fun line => munged_munged
    rw [String.toList_ofList, hlines]
    refine ⟨fun v => ?_, List.forall_mem_map.2 fun line _ => munged_credential,
      filter_munged _ _, rfl⟩
    rw [mungeOffer_eq, mungeOffer_eq, String.toList_ofList, hlines, List.countP_map, hcred,
      List.map_map, hlast]
  · cases h

theorem mungeOffer_munge_mixed :
    mungeOffer "v=0\r\na=ice-ufrag:u\r\na=ice-pwd:u\r\ns=-\r\r\n" "w" =
      mungeOffer "v=0\n\r\n\na=ice-ufrag:x\r\na=ice-pwd:y\ns=-\r\r" "w" :=
  (mungeOffer_munge (u := "u") (by decide) (by rfl)).1 "w"

end AntClient
