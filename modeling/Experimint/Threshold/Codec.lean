import Experimint.Lib.Codec
import Experimint.Lib.Table
import Experimint.Usdt.Bytes

/-!
# The encrypted round codec

One payload carries a party's messages of one round: the broadcast in the clear, and for each
recipient a box under a key that is derived from an ephemeral shared secret and from a string that
frames the domain, the round, the sender and the recipient.

* `Suite`, `Serializer` — the cryptography and the serializer, with what is assumed of them.
* `info_inj` — the framing is unambiguous.
* `openRound_sealRound` — a payload opens to what was sealed.
* `openBox_of_ne` — a box does not open in another context.
* `codec_binds_context` — both together.
-/

set_option autoImplicit false

namespace Experimint.ThresholdEcdsa

open FedimintUsdt (ascii toBeBytes toBeBytes_inj length_toBeBytes)

/-- Literals of 16-bit types. -/
instance neZeroParty : NeZero (2 ^ 16) := inferInstance

/-- Literals of 64-bit types. -/
instance neZeroRound : NeZero (2 ^ 64) := inferInstance

abbrev PartyIndex := Fin (2 ^ 16)

abbrev Round := Fin (2 ^ 64)

/-! ## Parameters -/

/-- Key agreement, key derivation and authenticated encryption. -/
structure Suite where
  SecretKey : Type
  PublicKey : Type
  Shared : Type
  Key : Type
  Nonce : Type
  publicKey : SecretKey → PublicKey
  serialize : PublicKey → Bytes
  fromSlice : Bytes → Option PublicKey
  sharedSecret : PublicKey → SecretKey → Shared
  /-- Derives a key from a salt, a secret and an info string. -/
  hkdf : Bytes → Shared → Bytes → Key
  encrypt : Nonce → Key → Bytes → Option Bytes
  decrypt : Key → Bytes → Option Bytes
  fromSlice_serialize : ∀ pk, fromSlice (serialize pk) = some pk
  sharedSecret_comm : ∀ a b, sharedSecret (publicKey a) b = sharedSecret (publicKey b) a
  hkdf_inj : ∀ salt s s' i i', hkdf salt s i = hkdf salt s' i' → s = s' ∧ i = i'
  decrypt_encrypt : ∀ n k p c, encrypt n k p = some c → decrypt k c = some p
  /-- Only the sealing key decrypts. -/
  decrypt_other : ∀ n k k' p c, encrypt n k p = some c → k' ≠ k → decrypt k' c = none

structure Serializer (T : Type) where
  serialize : T → Option Bytes
  deserialize : Bytes → Option T
  deserialize_serialize : ∀ v bytes, serialize v = some bytes → deserialize bytes = some v

def Serializer.serdeEncode {T : Type} (z : Serializer T) (v : T) : Except String Bytes :=
  match z.serialize v with
  | some bytes => .ok bytes
  | none => .error "failed to serialize round message"

def Serializer.serdeDecode {T : Type} (z : Serializer T) (bytes : Bytes) : Except String T :=
  match z.deserialize bytes with
  | some v => .ok v
  | none => .error "failed to deserialize round message"

/-! ## Packets -/

structure EciesBox where
  ephemeralPk : Bytes
  ciphertext : Bytes
deriving DecidableEq

structure RoundPacket where
  broadcast : Option Bytes
  p2p : Table PartyIndex EciesBox
deriving DecidableEq

structure OpenedRound (M : Type) where
  broadcast : Option M
  p2pToMe : Option M

structure EncryptedRoundCodec (S : Suite) where
  myIndex : PartyIndex
  mySecret : S.SecretKey
  partyPubkeys : List S.PublicKey
  domain : Bytes

/-- Random choices for one payload: an ephemeral secret and a nonce for each recipient. -/
abbrev SealRandomness (S : Suite) : Type := PartyIndex → S.SecretKey × S.Nonce

def P2P_SALT : Bytes := ascii "fedimint-threshold-ecdsa/round-p2p/v0"

/-- What a key is bound to. -/
def info (domain : Bytes) (round : Round) (sender recipient : PartyIndex) : Bytes :=
  toBeBytes 4 domain.length ++ domain ++ toBeBytes 8 round.val ++ toBeBytes 2 sender.val ++
    toBeBytes 2 recipient.val

/-- The key has the cipher's length by construction, so making a cipher of it does not fail. -/
def aeadKey (S : Suite) (shared : S.Shared) (domain : Bytes) (round : Round)
    (sender recipient : PartyIndex) : Except String S.Key :=
  if domain.length < 2 ^ 32 then .ok (S.hkdf P2P_SALT shared (info domain round sender recipient))
  else .error "domain too long"

namespace EncryptedRoundCodec

variable {S : Suite} {M : Type} (c : EncryptedRoundCodec S) (msg : Serializer M)
  (packets : Serializer RoundPacket)

/-- The box of one recipient. -/
def sealBox (rand : SealRandomness S) (round : Round) (recipient : PartyIndex) (message : M) :
    Except String EciesBox :=
  match c.partyPubkeys[recipient.val]? with
  | none => .error ("no public key registered for party " ++ toString recipient.val)
  | some recipientPk =>
    let ephemeralSk := (rand recipient).1
    let shared := S.sharedSecret recipientPk ephemeralSk
    match aeadKey S shared c.domain round c.myIndex recipient with
    | .error e => .error e
    | .ok key =>
      match msg.serdeEncode message with
      | .error e => .error e
      | .ok plaintext =>
        match S.encrypt (rand recipient).2 key plaintext with
        | none => .error "encrypting p2p round message failed"
        | some ciphertext => .ok ⟨S.serialize (S.publicKey ephemeralSk), ciphertext⟩

/-- The loop over the recipients. -/
def sealBoxes (rand : SealRandomness S) (round : Round) :
    List (PartyIndex × M) → Table PartyIndex EciesBox → Except String (Table PartyIndex EciesBox)
  | [], boxes => .ok boxes
  | (recipient, message) :: rest, boxes =>
    match c.sealBox msg rand round recipient message with
    | .error e => .error e
    | .ok box => sealBoxes rand round rest (boxes.insert recipient box)

def encodeBroadcast (broadcast : Option M) : Except String (Option Bytes) :=
  match broadcast with
  | none => .ok none
  | some m => (msg.serdeEncode m).map some

def sealRound (rand : SealRandomness S) (round : Round) (broadcast : Option M)
    (p2p : Table PartyIndex M) : Except String Bytes :=
  match encodeBroadcast msg broadcast with
  | .error e => .error e
  | .ok broadcast =>
    match c.sealBoxes msg rand round p2p.rows .empty with
    | .error e => .error e
    | .ok boxes => packets.serdeEncode ⟨broadcast, boxes⟩

def openBox (round : Round) (sender : PartyIndex) (box : EciesBox) : Except String M :=
  match S.fromSlice box.ephemeralPk with
  | none => .error "invalid ephemeral public key in p2p box"
  | some ephemeralPk =>
    let shared := S.sharedSecret ephemeralPk c.mySecret
    match aeadKey S shared c.domain round sender c.myIndex with
    | .error e => .error e
    | .ok key =>
      match S.decrypt key box.ciphertext with
      | none => .error ("decrypting p2p round message from party " ++ toString sender.val ++
          " failed")
      | some plaintext => msg.serdeDecode plaintext

def decodeBroadcast (sender : PartyIndex) (broadcast : Option Bytes) : Except String (Option M) :=
  match broadcast with
  | none => .ok none
  | some bytes =>
    match msg.deserialize bytes with
    | some m => .ok (some m)
    | none => .error ("failed to decode broadcast from party " ++ toString sender.val)

def openRound (round : Round) (sender : PartyIndex) (payload : Bytes) :
    Except String (OpenedRound M) :=
  match packets.deserialize payload with
  | none => .error ("failed to decode round packet from party " ++ toString sender.val)
  | some packet =>
    match decodeBroadcast msg sender packet.broadcast with
    | .error e => .error e
    | .ok broadcast =>
      match packet.p2p.get? c.myIndex with
      | none => .ok ⟨broadcast, none⟩
      | some box =>
        match c.openBox msg round sender box with
        | .error e => .error e
        | .ok m => .ok ⟨broadcast, some m⟩

end EncryptedRoundCodec

/-! ## The key's context -/

/-- **The framing is unambiguous.** -/
theorem info_inj {domain domain' : Bytes} {round round' : Round}
    {sender sender' recipient recipient' : PartyIndex} (hdomain : domain.length < 2 ^ 32)
    (hdomain' : domain'.length < 2 ^ 32)
    (h : info domain round sender recipient = info domain' round' sender' recipient') :
    domain = domain' ∧ round = round' ∧ sender = sender' ∧ recipient = recipient' := by
  unfold info at h
  simp only [List.append_assoc] at h
  obtain ⟨hlen, h⟩ := List.append_inj h (by rw [length_toBeBytes, length_toBeBytes])
  have hlen := toBeBytes_inj hlen hdomain hdomain'
  obtain ⟨hd, h⟩ := List.append_inj h hlen
  obtain ⟨hr, h⟩ := List.append_inj h (by rw [length_toBeBytes, length_toBeBytes])
  obtain ⟨hs, hj⟩ := List.append_inj h (by rw [length_toBeBytes, length_toBeBytes])
  have hround (r : Round) : r.val < 256 ^ 8 := r.isLt
  have hparty (i : PartyIndex) : i.val < 256 ^ 2 := i.isLt
  exact ⟨hd, Fin.ext (toBeBytes_inj hr (hround _) (hround _)),
    Fin.ext (toBeBytes_inj hs (hparty _) (hparty _)),
    Fin.ext (toBeBytes_inj hj (hparty _) (hparty _))⟩

theorem aeadKey_eq_ok_iff {S : Suite} {shared : S.Shared} {domain : Bytes} {round : Round}
    {sender recipient : PartyIndex} {key : S.Key} :
    aeadKey S shared domain round sender recipient = .ok key ↔
      domain.length < 2 ^ 32 ∧
        S.hkdf P2P_SALT shared (info domain round sender recipient) = key := by
  unfold aeadKey
  by_cases h : domain.length < 2 ^ 32
  · rw [if_pos h, Except.ok.injEq]
    exact ⟨fun hkey => ⟨h, hkey⟩, And.right⟩
  · rw [if_neg h]
    refine ⟨fun hkey => ?_, fun hkey => absurd hkey.1 h⟩
    cases hkey

theorem Serializer.serdeEncode_eq_ok_iff {T : Type} {z : Serializer T} {v : T} {bytes : Bytes} :
    z.serdeEncode v = .ok bytes ↔ z.serialize v = some bytes := by
  unfold serdeEncode
  cases z.serialize v with
  | none => simp
  | some b => simp

namespace EncryptedRoundCodec

variable {S : Suite} {M : Type} {c c' : EncryptedRoundCodec S} {msg : Serializer M}
  {packets : Serializer RoundPacket} {rand : SealRandomness S} {round : Round}
  {recipient : PartyIndex} {message : M} {box : EciesBox}

/-! ## Boxes -/

/-- The key of a recipient's box. -/
def boxKey (c : EncryptedRoundCodec S) (rand : SealRandomness S) (round : Round)
    (recipient : PartyIndex) (recipientPk : S.PublicKey) : S.Key :=
  S.hkdf P2P_SALT (S.sharedSecret recipientPk (rand recipient).1)
    (info c.domain round c.myIndex recipient)

/-- What a sealed box holds. -/
theorem sealBox_ok (h : c.sealBox msg rand round recipient message = .ok box) :
    ∃ recipientPk plaintext, c.partyPubkeys[recipient.val]? = some recipientPk ∧
      c.domain.length < 2 ^ 32 ∧ msg.serialize message = some plaintext ∧
      box.ephemeralPk = S.serialize (S.publicKey (rand recipient).1) ∧
      S.encrypt (rand recipient).2 (c.boxKey rand round recipient recipientPk) plaintext =
        some box.ciphertext := by
  unfold sealBox at h
  split at h
  · cases h
  rename_i recipientPk hpk
  dsimp only at h
  split at h
  · cases h
  rename_i key hkey
  split at h
  · cases h
  rename_i plaintext hplain
  split at h
  · cases h
  rename_i ciphertext hcipher
  cases h
  obtain ⟨hdomain, rfl⟩ := aeadKey_eq_ok_iff.1 hkey
  exact ⟨recipientPk, plaintext, hpk, hdomain, Serializer.serdeEncode_eq_ok_iff.1 hplain, rfl,
    hcipher⟩

/-- The recipient reads its box. -/
theorem openBox_sealBox (h : c.sealBox msg rand round c'.myIndex message = .ok box)
    (hdomain : c'.domain = c.domain)
    (hkey : c.partyPubkeys[c'.myIndex.val]? = some (S.publicKey c'.mySecret)) :
    c'.openBox msg round c.myIndex box = .ok message := by
  obtain ⟨recipientPk, plaintext, hpk, hlen, hplain, hephemeral, hcipher⟩ := sealBox_ok h
  obtain rfl : recipientPk = S.publicKey c'.mySecret := Option.some.inj (hpk.symm.trans hkey)
  have haead : aeadKey S (S.sharedSecret (S.publicKey (rand c'.myIndex).1) c'.mySecret) c'.domain
      round c.myIndex c'.myIndex =
        .ok (c.boxKey rand round c'.myIndex (S.publicKey c'.mySecret)) := by
    rw [aeadKey_eq_ok_iff, hdomain, S.sharedSecret_comm]
    exact ⟨hlen, rfl⟩
  unfold openBox
  rw [hephemeral, S.fromSlice_serialize]
  dsimp only
  rw [haead]
  dsimp only
  rw [S.decrypt_encrypt _ _ _ _ hcipher]
  dsimp only
  rw [Serializer.serdeDecode, msg.deserialize_serialize _ _ hplain]

/-- **A box does not open in another context**, whatever the secret key. -/
theorem openBox_of_ne {round' : Round} {sender' : PartyIndex}
    (h : c.sealBox msg rand round recipient message = .ok box)
    (hne : ¬ (c'.domain = c.domain ∧ round' = round ∧ sender' = c.myIndex ∧
      c'.myIndex = recipient)) (m : M) :
    c'.openBox msg round' sender' box ≠ .ok m := by
  intro hopen
  obtain ⟨recipientPk, plaintext, -, hlen, -, hephemeral, hcipher⟩ := sealBox_ok h
  unfold openBox at hopen
  rw [hephemeral, S.fromSlice_serialize] at hopen
  dsimp only at hopen
  split at hopen
  · cases hopen
  rename_i key hkey
  obtain ⟨hlen', rfl⟩ := aeadKey_eq_ok_iff.1 hkey
  -- Equal keys would have been derived from equal contexts.
  rw [S.decrypt_other _ _ _ _ _ hcipher fun heq =>
    hne (info_inj hlen' hlen (S.hkdf_inj _ _ _ _ _ heq).2)] at hopen
  cases hopen

/-! ## Payloads -/

/-- Each recipient's entry is its box; the other entries are left. -/
theorem sealBoxes_ok {rows : List (PartyIndex × M)} {boxes boxes' : Table PartyIndex EciesBox}
    (hnodup : (rows.map Prod.fst).Nodup)
    (h : c.sealBoxes msg rand round rows boxes = .ok boxes') (r : PartyIndex) :
    (∀ m, (r, m) ∈ rows →
      ∃ box, c.sealBox msg rand round r m = .ok box ∧ boxes'.get? r = some box) ∧
    (r ∉ rows.map Prod.fst → boxes'.get? r = boxes.get? r) := by
  induction rows generalizing boxes with
  | nil =>
    cases h
    exact ⟨fun m hm => absurd hm List.not_mem_nil, fun _ => rfl⟩
  | cons row rows ih =>
    obtain ⟨recipient, message⟩ := row
    rw [List.map_cons, List.nodup_cons] at hnodup
    rw [sealBoxes] at h
    split at h
    · cases h
    rename_i box hbox
    obtain ⟨hrows, hrest⟩ := ih hnodup.2 h
    refine ⟨fun m hm => ?_, fun hr => ?_⟩
    · rcases List.mem_cons.1 hm with heq | hm
      · -- The entry just written is not written again.
        cases heq
        exact ⟨box, hbox, by rw [hrest hnodup.1, Table.get?_insert_self]⟩
      · exact hrows m hm
    · rw [List.map_cons, List.mem_cons, not_or] at hr
      rw [hrest hr.2, Table.get?_insert_ne _ _ (Ne.symm hr.1)]

/-- What a sealed payload holds. -/
structure Seals (c : EncryptedRoundCodec S) (msg : Serializer M) (rand : SealRandomness S)
    (round : Round) (broadcast : Option M) (p2p : Table PartyIndex M) (packet : RoundPacket) :
    Prop where
  broadcast : ∀ sender, decodeBroadcast msg sender packet.broadcast = .ok broadcast
  absent : ∀ r, p2p.get? r = none → packet.p2p.get? r = none
  present : ∀ r m, p2p.get? r = some m →
    ∃ box, c.sealBox msg rand round r m = .ok box ∧ packet.p2p.get? r = some box

theorem decodeBroadcast_encodeBroadcast {broadcast : Option M} {bytes : Option Bytes}
    (h : encodeBroadcast msg broadcast = .ok bytes) (sender : PartyIndex) :
    decodeBroadcast msg sender bytes = .ok broadcast := by
  cases broadcast with
  | none =>
    cases h
    rfl
  | some m =>
    unfold encodeBroadcast at h
    dsimp only at h
    cases hser : msg.serdeEncode m with
    | error e =>
      rw [hser] at h
      cases h
    | ok b =>
      rw [hser] at h
      cases h
      unfold decodeBroadcast
      dsimp only
      rw [msg.deserialize_serialize m b (Serializer.serdeEncode_eq_ok_iff.1 hser)]

theorem sealRound_ok {broadcast : Option M} {p2p : Table PartyIndex M} {payload : Bytes}
    (h : c.sealRound msg packets rand round broadcast p2p = .ok payload) :
    ∃ packet, packets.deserialize payload = some packet ∧
      c.Seals msg rand round broadcast p2p packet := by
  unfold sealRound at h
  split at h
  · cases h
  rename_i bytes hbroadcast
  split at h
  · cases h
  rename_i boxes hboxes
  have hentries := sealBoxes_ok p2p.nodup_keys hboxes
  refine ⟨⟨bytes, boxes⟩, packets.deserialize_serialize _ _ (Serializer.serdeEncode_eq_ok_iff.1 h),
    decodeBroadcast_encodeBroadcast hbroadcast, fun r hr => ?_, fun r m hm => ?_⟩
  · rw [(hentries r).2, Table.get?_empty]
    rw [Table.mem_keys, hr]
    exact Bool.false_ne_true
  · exact (hentries r).1 m (Table.mem_rows.2 hm)

/-- **A payload opens to what was sealed.** -/
theorem openRound_sealRound {broadcast : Option M} {p2p : Table PartyIndex M} {payload : Bytes}
    (h : c.sealRound msg packets rand round broadcast p2p = .ok payload)
    (hdomain : c'.domain = c.domain)
    (hkey : c.partyPubkeys[c'.myIndex.val]? = some (S.publicKey c'.mySecret)) :
    c'.openRound msg packets round c.myIndex payload = .ok ⟨broadcast, p2p.get? c'.myIndex⟩ := by
  obtain ⟨packet, hpacket, hseals⟩ := sealRound_ok h
  unfold openRound
  rw [hpacket]
  dsimp only
  rw [hseals.broadcast]
  dsimp only
  cases hm : p2p.get? c'.myIndex with
  | none => rw [hseals.absent _ hm]
  | some m =>
    obtain ⟨box, hbox, hentry⟩ := hseals.present _ _ hm
    rw [hentry]
    dsimp only
    rw [openBox_sealBox hbox hdomain hkey]

/-- A payload does not open if the box in the opener's entry does not. -/
theorem openRound_of_openBox {sender : PartyIndex} {payload : Bytes} {packet : RoundPacket}
    (hpacket : packets.deserialize payload = some packet)
    (hentry : packet.p2p.get? c.myIndex = some box)
    (hbox : ∀ m, c.openBox msg round sender box ≠ .ok m) (opened : OpenedRound M) :
    c.openRound msg packets round sender payload ≠ .ok opened := by
  intro h
  unfold openRound at h
  rw [hpacket] at h
  dsimp only at h
  split at h
  · cases h
  rw [hentry] at h
  dsimp only at h
  split at h
  · cases h
  · exact hbox _ ‹_›

/-- **A payload opens to what was sealed, and its boxes open nowhere else.**  The recipient with
the matching key gets the broadcast and its own message, or their absence.  A box that was sealed
for `j`, in whatever payload it stands, does not open under another domain, round or sender, nor in
the entry of another party. -/
theorem codec_binds_context (S : Suite) {M : Type} (msg : Serializer M)
    (packets : Serializer RoundPacket) :
    (∀ (c c' : EncryptedRoundCodec S) rand round broadcast p2p payload,
      c.sealRound msg packets rand round broadcast p2p = .ok payload →
      c'.domain = c.domain →
      c.partyPubkeys[c'.myIndex.val]? = some (S.publicKey c'.mySecret) →
      c'.openRound msg packets round c.myIndex payload = .ok ⟨broadcast, p2p.get? c'.myIndex⟩) ∧
    ∀ (c c' : EncryptedRoundCodec S) rand round round' sender' broadcast p2p payload payload' packet
        packet' j box,
      c.sealRound msg packets rand round broadcast p2p = .ok payload →
      packets.deserialize payload = some packet → packet.p2p.get? j = some box →
      packets.deserialize payload' = some packet' → packet'.p2p.get? c'.myIndex = some box →
      ¬ (c'.domain = c.domain ∧ round' = round ∧ sender' = c.myIndex ∧ c'.myIndex = j) →
      ∃ e, c'.openRound msg packets round' sender' payload' = .error e := by
  refine ⟨fun c c' rand round broadcast p2p payload => openRound_sealRound, ?_⟩
  intro c c' rand round round' sender' broadcast p2p payload payload' packet packet' j box hseal
    hpacket hbox hpacket' hentry hne
  obtain ⟨sealed, hsealed, hseals⟩ := sealRound_ok hseal
  obtain rfl : sealed = packet := Option.some.inj (hsealed.symm.trans hpacket)
  -- An entry that is there was sealed for its recipient.
  obtain ⟨m, hm⟩ : ∃ m, p2p.get? j = some m := by
    cases hj : p2p.get? j with
    | none => cases (hseals.absent j hj).symm.trans hbox
    | some m => exact ⟨m, rfl⟩
  obtain ⟨box', hbox', hentry'⟩ := hseals.present j m hm
  obtain rfl : box' = box := Option.some.inj (hentry'.symm.trans hbox)
  cases hopen : c'.openRound msg packets round' sender' payload' with
  | error e => exact ⟨e, rfl⟩
  | ok opened =>
    exact absurd hopen (openRound_of_openBox hpacket' hentry (openBox_of_ne hbox' hne) opened)

end EncryptedRoundCodec

/-! ## A sample -/

/-- Keys are bytes, a secret is their sum, and a ciphertext names its key. -/
def sampleSuite : Suite where
  SecretKey := UInt8
  PublicKey := UInt8
  Shared := UInt8
  Key := Bytes
  Nonce := Unit
  publicKey sk := sk
  serialize pk := [pk]
  fromSlice bytes := bytes.head?
  sharedSecret pk sk := pk + sk
  hkdf salt shared info := shared :: (salt ++ info)
  encrypt _ key plaintext := some (stuff key ++ plaintext)
  decrypt key ciphertext := (unstuff ciphertext).bind fun r => if r.1 = key then some r.2 else none
  fromSlice_serialize _ := rfl
  sharedSecret_comm a b := UInt8.add_comm a b
  hkdf_inj _ _ _ _ _ h := ⟨(List.cons.inj h).1, List.append_cancel_left (List.cons.inj h).2⟩
  decrypt_encrypt _ key plaintext _ h := by
    cases h
    rw [unstuff_stuff, Option.bind_some, if_pos rfl]
  decrypt_other _ key key' plaintext _ h hne := by
    cases h
    rw [unstuff_stuff, Option.bind_some, if_neg (Ne.symm hne)]

def byteMessages : Serializer UInt8 where
  serialize m := some [m]
  deserialize bytes := bytes.head?
  deserialize_serialize v bytes h := by
    cases h
    rfl

/-- A serializer of listed values: a value is written as its place in the list. -/
def Serializer.ofList {T : Type} [DecidableEq T] (known : List T) : Serializer T where
  serialize v := (known.findIdx? (· = v)).map fun i => List.replicate i 0
  deserialize bytes := known[bytes.length]?
  deserialize_serialize v bytes h := by
    obtain ⟨i, hi, rfl⟩ := Option.map_eq_some_iff.1 h
    obtain ⟨hlt, hv, -⟩ := List.findIdx?_eq_some_iff_getElem.1 hi
    rw [List.length_replicate, List.getElem?_eq_getElem hlt, of_decide_eq_true hv]

def sampleCodec (i : PartyIndex) : EncryptedRoundCodec sampleSuite :=
  ⟨i, UInt8.ofNat (i.val + 1), ([1, 2, 3] : List UInt8), [7, 7]⟩

def sampleRand : SealRandomness sampleSuite := fun j => (UInt8.ofNat (j.val + 10), ())

/-- Two messages of party 0. -/
def sampleP2p : Table PartyIndex UInt8 := (Table.empty.insert 1 8).insert 2 9

/-- A packet with the given broadcast and messages. -/
def packetOf (i : PartyIndex) (round : Round) (broadcast : Option Bytes)
    (p2p : Table PartyIndex UInt8) : RoundPacket :=
  ⟨broadcast, ((sampleCodec i).sealBoxes byteMessages sampleRand round p2p.rows
    .empty).toOption.getD .empty⟩

def samplePackets : Serializer RoundPacket := .ofList [packetOf 0 0 (some [5]) sampleP2p]

theorem sampleSeal :
    (sampleCodec 0).sealRound byteMessages samplePackets sampleRand 0 (some 5) sampleP2p =
      .ok [] := by
  rfl

theorem codec_binds_context_sample :
    (sampleCodec 1).openRound byteMessages samplePackets 0 0 [] = .ok ⟨some 5, some 8⟩ ∧
      ∃ e, (sampleCodec 1).openRound byteMessages samplePackets 1 0 [] = .error e := by
  obtain ⟨hopen, hbind⟩ := EncryptedRoundCodec.codec_binds_context sampleSuite byteMessages
    samplePackets
  have hdecode : samplePackets.deserialize [] = some (packetOf 0 0 (some [5]) sampleP2p) := rfl
  obtain ⟨box, hbox⟩ : ∃ box, (packetOf 0 0 (some [5]) sampleP2p).p2p.get? 1 = some box :=
    Option.isSome_iff_exists.1 (by decide +kernel)
  refine ⟨hopen (sampleCodec 0) (sampleCodec 1) sampleRand 0 (some 5) sampleP2p [] sampleSeal rfl
      rfl,
    hbind (sampleCodec 0) (sampleCodec 1) sampleRand 0 1 0 (some 5) sampleP2p [] [] _ _ 1 box
      sampleSeal hdecode hbox hdecode hbox ?_⟩
  rintro ⟨-, hround, -, -⟩
  exact absurd hround (by decide)

end Experimint.ThresholdEcdsa
