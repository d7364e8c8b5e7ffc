import Nachos.Network.PostOffice

/-!
# What is left in the buffer of the postal worker

Packets from any sender.  `Receive` copies as many bytes as the packet has over a buffer
that is used for all packets, and `PostalDelivery` reads a mail header and then as many
bytes as that says.  It checks the second length against the largest mail, and not
against the first.  What a short packet does not overwrite is delivered with it.
-/

namespace Nachos
namespace Network

open Lib
open FileSys (Block)

/-- The memory that packets pass through: the `inbox` of the network and the `buffer` of
the postal worker. -/
structure Desk where
  inbox : Block
  buffer : Block

namespace Packet

abbrev hdr (packet : Packet) : PacketHeader := Header.read packet.block

/-- The bytes behind the header. -/
def body (packet : Packet) : Block := packet.block.from sizeofHeader

/-- `CheckPktAvail` accepts the packet, and does not take it for none. -/
structure Accepted (netAddr : NetworkAddress) (packet : Packet) : Prop where
  toAddress : packet.hdr.toAddress = netAddr
  pos : 0 < packet.hdr.length.toNat
  bounded : packet.hdr.length.toNat ≤ maxPacketSize

/-- The packet in memory that was cleared. -/
def padded (packet : Packet) : Block := fun k =>
  if k < packet.hdr.length.toNat then packet.body k else 0

end Packet

/-- The checks of `PostalDelivery`. -/
def Header.Legal (numBoxes : MailBoxAddress) (mailHdr : MailHeader) : Prop :=
  Machine.IsBox numBoxes mailHdr.toAddress ∧ mailHdr.length.toNat ≤ maxMailSize

namespace Desk

/-- The copy of `CheckPktAvail`. -/
def read (d : Desk) (packet : Packet) : Desk :=
  { d with inbox := d.inbox.copy 0 packet.hdr.length.toNat packet.body }

/-- The copy of `Receive`. -/
def receive (d : Desk) (hdr : PacketHeader) : Desk :=
  { d with
    buffer := if hdr.length ≠ 0 then d.buffer.copy 0 hdr.length.toNat d.inbox else d.buffer }

/-- `PostalDelivery` from `Receive` to the call of `Put`, which makes a mail in memory
that held `junk`. -/
def deliver (d : Desk) (numBoxes : MailBoxAddress) (hdr : PacketHeader) (junk : Block) :
    Except PostAssertion Mail :=
  let mailHdr := Header.read d.buffer
  if ¬ Machine.IsBox numBoxes mailHdr.toAddress then .error .deliveryBox
  else if ¬ mailHdr.length.toNat ≤ maxMailSize then .error .deliveryLength
  else .ok (Mail.new junk hdr mailHdr (d.buffer.from sizeofHeader))

/-- After a packet is received. -/
def next (d : Desk) (packet : Packet) : Desk := (d.read packet).receive packet.hdr

/-- Packets that are accepted, and that become mails one after the other. -/
inductive Run (netAddr : NetworkAddress) (numBoxes : MailBoxAddress) :
    Desk → List Packet → List Mail → Prop
  | nil {d : Desk} : Run netAddr numBoxes d [] []
  | cons {d : Desk} {packet : Packet} {mail : Mail} {junk : Block} {packets : List Packet}
      {mails : List Mail} (accepted : packet.Accepted netAddr)
      (delivered : (d.next packet).deliver numBoxes packet.hdr junk = .ok mail)
      (rest : Run netAddr numBoxes (d.next packet) packets mails) :
      Run netAddr numBoxes d (packet :: packets) (mail :: mails)

/-- In some run, from any contents of the memory and with any packets before, the packet
is delivered as this letter. -/
def Delivers (netAddr : NetworkAddress) (numBoxes : MailBoxAddress) (packet : Packet)
    (letter : Letter) : Prop :=
  ∃ (d : Desk) (packets : List Packet) (mails : List Mail) (k : Nat) (mail : Mail),
    Run netAddr numBoxes d packets mails ∧ packets[k]? = some packet ∧
      mails[k]? = some mail ∧ mail.letter = letter

/-- What is delivered for the packet depends on the packet only. -/
def Own (netAddr : NetworkAddress) (numBoxes : MailBoxAddress) (packet : Packet) : Prop :=
  ∀ letter letter', Delivers netAddr numBoxes packet letter →
    Delivers netAddr numBoxes packet letter' → letter = letter'

/-- The packet is refused, or it has all of the mail that its mail header announces. -/
def Covered (numBoxes : MailBoxAddress) (packet : Packet) : Prop :=
  ¬ (Header.read packet.padded).Legal numBoxes ∨
    9 ≤ packet.hdr.length.toNat ∧
      sizeofHeader + (Header.read packet.padded).length.toNat ≤
        max packet.hdr.length.toNat sizeofHeader

/-! ## The buffer -/

section

variable {netAddr : NetworkAddress} {numBoxes : MailBoxAddress} {packet : Packet} {d : Desk}
  {mail : Mail} {junk : Block}

/-- The packet over what was there. -/
theorem next_buffer (haccepted : packet.Accepted netAddr) (d : Desk) (k : Nat) :
    (d.next packet).buffer k =
      if k < packet.hdr.length.toNat then packet.body k else d.buffer k := by
  have hlength : packet.hdr.length ≠ 0 := by
    intro hzero
    have hpos := haccepted.pos
    rw [hzero] at hpos
    exact absurd hpos (by decide)
  simp only [next, read, receive, if_pos hlength, Block.copy, Nat.zero_le, true_and, Nat.zero_add,
    Nat.sub_zero]
  split
  · rfl
  · rfl

theorem deliver_ok :
    d.deliver numBoxes packet.hdr junk = .ok mail ↔ (Header.read d.buffer).Legal numBoxes ∧
      mail = Mail.new junk packet.hdr (Header.read d.buffer) (d.buffer.from sizeofHeader) := by
  unfold deliver Header.Legal
  by_cases hbox : Machine.IsBox numBoxes (Header.read d.buffer).toAddress
  · by_cases hlength : (Header.read d.buffer).length.toNat ≤ maxMailSize
    · simp only [hbox, hlength, not_true, if_false, true_and, Except.ok.injEq, eq_comm]
    · simp only [hbox, hlength, not_true, not_false_iff, if_false, if_true, and_false, false_and,
        reduceCtorEq]
  · simp [hbox]

/-- The mail of a run is that of its packet, over some buffer. -/
theorem Run.delivered {packets : List Packet} {mails : List Mail}
    (h : Run netAddr numBoxes d packets mails) :
    ∀ {k : Nat}, packets[k]? = some packet → mails[k]? = some mail →
      ∃ (d : Desk) (junk : Block), packet.Accepted netAddr ∧
        (d.next packet).deliver numBoxes packet.hdr junk = .ok mail := by
  induction h with
  | nil =>
    intro k hpacket
    cases hpacket
  | cons accepted delivered rest ih =>
    intro k hpacket hmail
    cases k with
    | zero =>
      cases hpacket
      cases hmail
      exact ⟨_, _, accepted, delivered⟩
    | succ k => exact ih hpacket hmail

theorem delivers_iff (haccepted : packet.Accepted netAddr) {letter : Letter} :
    Delivers netAddr numBoxes packet letter ↔
      ∃ d : Desk, (Header.read (d.next packet).buffer).Legal numBoxes ∧
        letter = letterOf packet.hdr (d.next packet).buffer := by
  constructor
  · rintro ⟨d, packets, mails, k, mail, hrun, hpacket, hmail, rfl⟩
    obtain ⟨d, junk, _, hdelivered⟩ := hrun.delivered hpacket hmail
    obtain ⟨hlegal, rfl⟩ := deliver_ok.mp hdelivered
    exact ⟨d, hlegal, Mail.letter_new _ _ _⟩
  · rintro ⟨d, hlegal, rfl⟩
    have hdelivered : (d.next packet).deliver numBoxes packet.hdr d.buffer = .ok _ :=
      deliver_ok.mpr ⟨hlegal, rfl⟩
    exact ⟨d, [packet], _, 0, _, .cons haccepted hdelivered .nil, rfl, rfl,
      Mail.letter_new _ _ _⟩

end

end Desk

/-! ## Bytes -/

namespace Header

variable {b c : Block}

theorem toNat_length (b : Block) : (read b).length.toNat =
    (b 8).toNat + 256 * (b 9).toNat + 65536 * (b 10).toNat + 16777216 * (b 11).toNat := by
  have h8 := (b 8).toNat_lt
  have h9 := (b 9).toNat_lt
  have h10 := (b 10).toNat_lt
  have h11 := (b 11).toNat_lt
  have hword : (read b).length.toNat =
      (BitVec.ofInt 32 (LittleEndian.int32 (b 8) (b 9) (b 10) (b 11))).toNat := rfl
  rw [hword, BitVec.toNat_ofInt]
  simp only [LittleEndian.int32]
  split <;> omega

theorem toInt_toAddress (b : Block) :
    (read b).toAddress.toInt = LittleEndian.int32 (b 0) (b 1) (b 2) (b 3) := by
  have hfits := LittleEndian.fits_int32 (b 0) (b 1) (b 2) (b 3)
  exact Int32.toInt_ofInt_of_le hfits.1 hfits.2

/-- Zeros in place of some bytes make no header illegal. -/
theorem Legal.mono {numBoxes : MailBoxAddress} (h : (read b).Legal numBoxes)
    (hzero : ∀ k, c k = b k ∨ c k = 0) : (read c).Legal numBoxes := by
  have hle : ∀ k, (c k).toNat ≤ (b k).toNat := by
    intro k
    rcases hzero k with heq | heq
    · rw [heq]
    · rw [heq]
      exact Nat.zero_le _
  obtain ⟨⟨hpos, hlt⟩, hlength⟩ := h
  have hb0 := (b 0).toNat_lt
  have hb1 := (b 1).toNat_lt
  have hb2 := (b 2).toNat_lt
  have hb3 := (b 3).toNat_lt
  have hc0 := hle 0
  have hc1 := hle 1
  have hc2 := hle 2
  have hc3 := hle 3
  have hbox : 0 ≤ LittleEndian.int32 (c 0) (c 1) (c 2) (c 3) ∧
      LittleEndian.int32 (c 0) (c 1) (c 2) (c 3) ≤
        LittleEndian.int32 (b 0) (b 1) (b 2) (b 3) := by
    rw [Int32.le_iff_toInt_le, toInt_toAddress] at hpos
    have hpos' : 0 ≤ LittleEndian.int32 (b 0) (b 1) (b 2) (b 3) := hpos
    simp only [LittleEndian.int32] at hpos' ⊢
    split at hpos' <;> split <;> omega
  refine ⟨⟨?_, ?_⟩, ?_⟩
  · rw [Int32.le_iff_toInt_le, toInt_toAddress]
    exact hbox.1
  · rw [Int32.lt_iff_toInt_lt, toInt_toAddress] at hlt ⊢
    omega
  · rw [toNat_length] at hlength ⊢
    have hc8 := hle 8
    have hc9 := hle 9
    have hc10 := hle 10
    have hc11 := hle 11
    omega

/-- The length of a legal mail is in the first of its four bytes. -/
theorem Legal.high {numBoxes : MailBoxAddress} (h : (read b).Legal numBoxes) {k : Nat}
    (hk : 9 ≤ k) (hk' : k < sizeofHeader) : b k = 0 := by
  have hlength : (read b).length.toNat ≤ 40 := h.2
  rw [toNat_length] at hlength
  apply UInt8.toNat_inj.mp
  show (b k).toNat = 0
  have hcases : k = 9 ∨ k = 10 ∨ k = 11 := by
    have hk'' : k < 12 := hk'
    omega
  rcases hcases with rfl | rfl | rfl <;> omega

end Header

namespace Desk

section

variable {netAddr : NetworkAddress} {numBoxes : MailBoxAddress} {packet : Packet}

theorem padded_or_zero (haccepted : packet.Accepted netAddr) (d : Desk) (k : Nat) :
    packet.padded k = (d.next packet).buffer k ∨ packet.padded k = 0 := by
  rw [next_buffer haccepted]
  unfold Packet.padded
  by_cases hk : k < packet.hdr.length.toNat
  · rw [if_pos hk, if_pos hk]
    exact .inl rfl
  · rw [if_neg hk]
    exact .inr rfl

/-- From nine bytes on, the packet decides what a mail header is that passes the checks. -/
theorem read_next (haccepted : packet.Accepted netAddr) {d : Desk}
    (hlegal : (Header.read (d.next packet).buffer).Legal numBoxes)
    (hlength : 9 ≤ packet.hdr.length.toNat) :
    Header.read (d.next packet).buffer = Header.read packet.padded := by
  apply Header.read_congr
  intro k hk
  by_cases hin : k < packet.hdr.length.toNat
  · rw [next_buffer haccepted, if_pos hin, Packet.padded, if_pos hin]
  · rw [hlegal.high (by omega) hk, Packet.padded, if_neg hin]

theorem own_of_covered (haccepted : packet.Accepted netAddr) (hcovered : Covered numBoxes packet) :
    Own netAddr numBoxes packet := by
  intro letter letter' h h'
  obtain ⟨d, hlegal, rfl⟩ := (delivers_iff haccepted).mp h
  obtain ⟨d', hlegal', rfl⟩ := (delivers_iff haccepted).mp h'
  rcases hcovered with hrefused | ⟨hlength, hcovered⟩
  · exact absurd (hlegal.mono (padded_or_zero haccepted d)) hrefused
  · have hread := read_next haccepted hlegal hlength
    have hread' := read_next haccepted hlegal' hlength
    have hdata : bytes ((d.next packet).buffer.from sizeofHeader)
        (Header.read packet.padded).length.toNat =
          bytes ((d'.next packet).buffer.from sizeofHeader)
            (Header.read packet.padded).length.toNat := by
      apply bytes_congr
      intro k hk
      have hin : sizeofHeader + k < packet.hdr.length.toNat := by
        have hcovered' : 12 + (Header.read packet.padded).length.toNat ≤
          max packet.hdr.length.toNat 12 := hcovered
        show 12 + k < _
        omega
      rw [Block.from, Block.from, next_buffer haccepted, next_buffer haccepted, if_pos hin,
        if_pos hin]
    simp only [letterOf, hread, hread', hdata]

/-- Memory with a one at offset `j` of the buffer. -/
def marked (j : Nat) : Desk := ⟨fun _ => 0, fun k => if k = j then 1 else 0⟩

/-- Memory that was cleared. -/
def cleared : Desk := ⟨fun _ => 0, fun _ => 0⟩

theorem cleared_next (haccepted : packet.Accepted netAddr) :
    (cleared.next packet).buffer = packet.padded := by
  funext k
  exact next_buffer haccepted cleared k

theorem marked_next (haccepted : packet.Accepted netAddr) {j : Nat}
    (hj : packet.hdr.length.toNat ≤ j) (k : Nat) :
    ((marked j).next packet).buffer k = if k = j then 1 else packet.padded k := by
  rw [next_buffer haccepted]
  unfold Packet.padded
  by_cases hk : k < packet.hdr.length.toNat
  · rw [if_pos hk, if_neg (show ¬ k = j by omega), if_pos hk]
  · rw [if_neg hk, if_neg hk]
    rfl

/-- A packet that ends before the length of its mail has the length from the buffer. -/
theorem not_own_of_short (haccepted : packet.Accepted netAddr)
    (hlegal : (Header.read packet.padded).Legal numBoxes) (hlength : packet.hdr.length.toNat < 9) :
    ¬ Own netAddr numBoxes packet := by
  intro hown
  have hmark := marked_next haccepted (j := 8) (by omega)
  have hlow : ∀ k, k ≠ 8 → ((marked 8).next packet).buffer k = packet.padded k := by
    intro k hk
    rw [hmark, if_neg hk]
  have hzero : ∀ k, 8 ≤ k → packet.padded k = 0 := by
    intro k hk
    exact if_neg (by omega)
  have hone : (Header.read ((marked 8).next packet).buffer).length.toNat = 1 := by
    rw [Header.toNat_length, hlow 9 (by omega), hlow 10 (by omega), hlow 11 (by omega), hmark,
      hzero 9 (by omega), hzero 10 (by omega), hzero 11 (by omega)]
    rfl
  have hnone : (Header.read packet.padded).length.toNat = 0 := by
    rw [Header.toNat_length, hzero 8 (by omega), hzero 9 (by omega), hzero 10 (by omega),
      hzero 11 (by omega)]
    rfl
  have hto : (Header.read ((marked 8).next packet).buffer).toAddress =
      (Header.read packet.padded).toAddress := by
    apply Int32.toInt_inj.mp
    rw [Header.toInt_toAddress, Header.toInt_toAddress, hlow 0 (by omega), hlow 1 (by omega),
      hlow 2 (by omega), hlow 3 (by omega)]
  have hlegal' : (Header.read ((marked 8).next packet).buffer).Legal numBoxes := by
    constructor
    · rw [hto]
      exact hlegal.1
    · rw [hone]
      decide
  have hletters := hown _ _ ((delivers_iff haccepted).mpr ⟨marked 8, hlegal', rfl⟩)
    ((delivers_iff haccepted).mpr ⟨cleared, by rw [cleared_next haccepted]; exact hlegal, rfl⟩)
  rw [cleared_next haccepted] at hletters
  have hheaders : Header.read ((marked 8).next packet).buffer = Header.read packet.padded :=
    congrArg Letter.mailHdr hletters
  rw [hheaders] at hone
  omega

/-- A packet that ends before its mail has the rest from the buffer. -/
theorem not_own_of_truncated (haccepted : packet.Accepted netAddr)
    (hlegal : (Header.read packet.padded).Legal numBoxes)
    (htruncated : max packet.hdr.length.toNat sizeofHeader <
      sizeofHeader + (Header.read packet.padded).length.toNat) :
    ¬ Own netAddr numBoxes packet := by
  intro hown
  generalize hj : max packet.hdr.length.toNat sizeofHeader = j at htruncated
  have hmark := marked_next haccepted (j := j) (by omega)
  have hread : Header.read ((marked j).next packet).buffer = Header.read packet.padded := by
    apply Header.read_congr
    intro k hk
    rw [hmark, if_neg (by omega)]
  have hletters := hown _ _
    ((delivers_iff haccepted).mpr ⟨marked j, by rw [hread]; exact hlegal, rfl⟩)
    ((delivers_iff haccepted).mpr ⟨cleared, by rw [cleared_next haccepted]; exact hlegal, rfl⟩)
  rw [cleared_next haccepted] at hletters
  have hdata := congrArg Letter.data hletters
  simp only [letterOf, hread] at hdata
  have hbyte := List.map_inj_left.mp hdata (j - 12) (List.mem_range.mpr (by
    have htruncated' : j < 12 + (Header.read packet.padded).length.toNat := htruncated
    omega))
  have hindex : sizeofHeader + (j - 12) = j := by
    have hj' : max packet.hdr.length.toNat 12 = j := hj
    show 12 + (j - 12) = j
    omega
  rw [Block.from, Block.from, hindex, hmark, if_pos rfl, Packet.padded, if_neg (by omega)] at hbyte
  exact absurd hbyte (by decide)

/-- **Whose mail.**  What is delivered for a packet depends on that packet alone just when
`PostalDelivery` refuses it, or it is long enough for the mail that it announces. -/
theorem own_iff_covered (haccepted : packet.Accepted netAddr) :
    Own netAddr numBoxes packet ↔ Covered numBoxes packet := by
  constructor
  · intro hown
    by_cases hlegal : (Header.read packet.padded).Legal numBoxes
    · refine .inr ⟨?_, ?_⟩
      · by_contra hshort
        exact not_own_of_short haccepted hlegal (by omega) hown
      · by_contra htruncated
        exact not_own_of_truncated haccepted hlegal (by omega) hown
    · exact .inl hlegal
  · exact own_of_covered haccepted

end

/-- A packet from machine 1 to mail box 0, of this length and with a mail of that. -/
def announcing (length mailLength : UInt8) : Packet := fun k =>
  if k.val = 4 then 1 else if k.val = 8 then length else if k.val = 20 then mailLength else 0

/-- Four bytes of data, and all of them in the packet. -/
theorem own_iff_covered_whole : Own 0 1 (announcing 16 4) :=
  (own_iff_covered ⟨by decide, by decide, by decide⟩).mpr
    (.inr ⟨by decide, by decide⟩)

/-- Four bytes of data in a packet that has a mail header only. -/
theorem not_own_announced :
    ¬ ∀ (netAddr : NetworkAddress) (numBoxes : MailBoxAddress) (packet : Packet),
      packet.Accepted netAddr → Own netAddr numBoxes packet := by
  intro h
  have haccepted : (announcing 12 4).Accepted 0 := ⟨by decide, by decide, by decide⟩
  have hlegal : (Header.read (announcing 12 4).padded).Legal 1 := ⟨by decide, by decide⟩
  exact not_own_of_truncated haccepted hlegal (by decide) (h 0 1 _ haccepted)

end Desk

/-- A packet that the post office sent is long enough. -/
theorem Desk.covered_of_sealed {packet : Packet} (h : packet.letter.Sealed)
    (numBoxes : MailBoxAddress) : Desk.Covered numBoxes packet := by
  have hlength : packet.hdr.length.toNat = (Header.read packet.body).length.toNat + 12 := h.length
  have hread : Header.read packet.padded = Header.read packet.body := by
    apply Header.read_congr
    intro k hk
    have hk' : k < 12 := hk
    exact if_pos (by omega)
  refine .inr ⟨by omega, ?_⟩
  show 12 + (Header.read packet.padded).length.toNat ≤ max packet.hdr.length.toNat 12
  rw [hread]
  omega

/-! ## The memory of a post office -/

namespace Machine

def desk (M : Machine) : Desk := ⟨M.inbox, M.buffer⟩

variable (M : Machine)

theorem incomingPacket_desk : M.incomingPacket.desk = M.desk := by
  unfold incomingPacket
  split
  · unfold readyWorker
    split
    · rfl
    · split <;> rfl
  · rfl

theorem readPacket_desk {netAddr : NetworkAddress} {packet : Packet}
    (haccepted : packet.Accepted netAddr) (rest : List Packet) :
    (M.readPacket netAddr packet rest).desk = M.desk.read packet := by
  unfold readPacket
  dsimp only
  rw [if_pos ⟨haccepted.toAddress, haccepted.bounded⟩, incomingPacket_desk]
  rfl

theorem receive_desk : M.receive.desk = M.desk.receive M.inHdr := rfl

theorem deliver_desk (numBoxes : MailBoxAddress) (pktHdr : PacketHeader) (junk : Block) :
    M.deliver numBoxes pktHdr junk =
      match M.desk.deliver numBoxes pktHdr junk with
      | .ok mail => { M with worker := .putAcquire mail }
      | .error a => M.fail a := by
  unfold deliver Desk.deliver
  by_cases hbox : IsBox numBoxes (Header.read M.buffer).toAddress
  · by_cases hlength : (Header.read M.buffer).length.toNat ≤ maxMailSize
    · simp only [desk, hbox, hlength, not_true, if_false]
    · simp only [desk, hbox, hlength, not_true, not_false_iff, if_false, if_true]
  · simp only [desk, hbox, not_false_iff, if_true]

end Machine

end Network
end Nachos
