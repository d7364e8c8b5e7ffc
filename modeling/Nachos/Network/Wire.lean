import Nachos.FileSys.Disk

/-!
# Mail on the wire

A mail travels behind two headers, and each layer puts its own in front of what
it is given: the post office a `MailHeader`, the network a `PacketHeader`.  The
two have the same three words.
-/

namespace Nachos
namespace Network

open Lib
open FileSys (Block)

abbrev NetworkAddress := Int32

abbrev MailBoxAddress := Int32

/-- The words of a `PacketHeader`, and of a `MailHeader`: where to, where from, and the
bytes behind the header. -/
structure Header where
  toAddress : Int32
  fromAddress : Int32
  length : UInt32
  deriving DecidableEq

/-- Between machines. -/
abbrev PacketHeader := Header

/-- Between mail boxes. -/
abbrev MailHeader := Header

@[simp] abbrev sizeofHeader : Nat := 12

@[simp] abbrev maxWireSize : Nat := 64

@[simp] abbrev maxPacketSize : Nat := maxWireSize - sizeofHeader

@[simp] abbrev maxMailSize : Nat := maxPacketSize - sizeofHeader

/-! ## Headers as bytes -/

namespace Header

/-- The memory of a header. -/
def image (h : Header) : Block := fun k =>
  if k < 4 then LittleEndian.byte h.toAddress.toInt k
  else if k < 8 then LittleEndian.byte h.fromAddress.toInt (k - 4)
  else LittleEndian.byte h.length.toInt32.toInt (k - 8)

/-- The header that a pointer to some bytes is cast to. -/
def read (b : Block) : Header where
  toAddress := Int32.ofInt (b.int 0)
  fromAddress := Int32.ofInt (b.int 1)
  length := (Int32.ofInt (b.int 2)).toUInt32

theorem read_congr {b c : Block} (h : ∀ k, k < sizeofHeader → b k = c k) : read b = read c := by
  have hword : ∀ w, w < 3 → b.int w = c.int w := fun w hw =>
    Block.int_congr fun k hk => h _ (by show 4 * w + k < 12; omega)
  simp only [read, hword 0 (by omega), hword 1 (by omega), hword 2 (by omega)]

theorem read_image (h : Header) : read h.image = h := by
  have hto : h.image.int 0 = h.toAddress.toInt :=
    Block.int_image ⟨h.toAddress.le_toInt, h.toAddress.toInt_lt⟩ fun k hk => by
      rw [image, if_pos (by omega)]
      congr 1
      omega
  have hfrom : h.image.int 1 = h.fromAddress.toInt :=
    Block.int_image ⟨h.fromAddress.le_toInt, h.fromAddress.toInt_lt⟩ fun k hk => by
      rw [image, if_neg (by omega), if_pos (by omega)]
      congr 1
      omega
  have hlength : h.image.int 2 = h.length.toInt32.toInt :=
    Block.int_image ⟨h.length.toInt32.le_toInt, h.length.toInt32.toInt_lt⟩ fun k hk => by
      rw [image, if_neg (by omega), if_neg (by omega)]
      congr 1
      omega
  simp only [read, hto, hfrom, hlength, Int32.ofInt_toInt, UInt32.toUInt32_toInt32]

end Header

/-- The first `n` bytes of a block. -/
def bytes (b : Block) (n : Nat) : List UInt8 := (List.range n).map b

theorem bytes_congr {b c : Block} {n : Nat} (h : ∀ k, k < n → b k = c k) :
    bytes b n = bytes c n :=
  List.map_congr_left fun k hk => h k (List.mem_range.mp hk)

/-! ## Letters -/

/-- A mail as its receiver gets it. -/
structure Letter where
  pktHdr : PacketHeader
  mailHdr : MailHeader
  data : List UInt8

/-- The mail in a packet: the post office takes its own header off the front. -/
def letterOf (pktHdr : PacketHeader) (body : Block) : Letter where
  pktHdr := pktHdr
  mailHdr := Header.read body
  data := bytes (body.from sizeofHeader) (Header.read body).length.toNat

/-- The packet holds the mail header and the data, and no more. -/
structure Letter.Sealed (l : Letter) : Prop where
  length : l.pktHdr.length.toNat = l.mailHdr.length.toNat + sizeofHeader
  bounded : l.mailHdr.length.toNat ≤ maxMailSize

theorem Letter.Sealed.le_maxPacketSize {l : Letter} (h : l.Sealed) :
    l.pktHdr.length.toNat ≤ maxPacketSize := by
  have hlength : l.pktHdr.length.toNat = l.mailHdr.length.toNat + 12 := h.length
  have hbounded : l.mailHdr.length.toNat ≤ 40 := h.bounded
  show l.pktHdr.length.toNat ≤ 52
  omega

theorem Letter.Sealed.sizeofHeader_le {l : Letter} (h : l.Sealed) :
    sizeofHeader ≤ l.pktHdr.length.toNat := by
  rw [h.length]
  exact Nat.le_add_left ..

/-- A letter is in the bytes that its packet header counts. -/
theorem letterOf_congr {hdr : PacketHeader} {b c : Block} (hb : (letterOf hdr b).Sealed)
    (h : ∀ k, k < hdr.length.toNat → b k = c k) : letterOf hdr b = letterOf hdr c := by
  have hle : sizeofHeader ≤ hdr.length.toNat := hb.sizeofHeader_le
  have hlength : hdr.length.toNat = (Header.read b).length.toNat + 12 := hb.length
  have hhdr : Header.read b = Header.read c :=
    Header.read_congr fun k hk => h k (Nat.lt_of_lt_of_le hk hle)
  have hdata : bytes (b.from sizeofHeader) (Header.read b).length.toNat =
      bytes (c.from sizeofHeader) (Header.read b).length.toNat := by
    refine bytes_congr fun k hk => h (12 + k) ?_
    omega
  simp only [letterOf, hdata, ← hhdr]

/-- What a thread gives to `PostOffice::Send`. -/
structure Parcel where
  toAddress : NetworkAddress
  mailHdr : MailHeader
  data : List UInt8

/-- The mail that a parcel becomes at the machine `netAddr`. -/
def Parcel.letter (netAddr : NetworkAddress) (p : Parcel) : Letter where
  pktHdr :=
    { toAddress := p.toAddress
      fromAddress := netAddr
      length := p.mailHdr.length + UInt32.ofNat sizeofHeader }
  mailHdr := p.mailHdr
  data := p.data

theorem Parcel.letter_sealed {p : Parcel} (h : p.mailHdr.length.toNat ≤ maxMailSize)
    (netAddr : NetworkAddress) : (p.letter netAddr).Sealed := by
  have hlt : p.mailHdr.length.toNat ≤ 40 := h
  refine ⟨?_, h⟩
  show (p.mailHdr.length + UInt32.ofNat 12).toNat = p.mailHdr.length.toNat + 12
  rw [UInt32.toNat_add]
  show (p.mailHdr.length.toNat + 12) % 2 ^ 32 = _
  omega

/-! ## Packets -/

/-- Bytes behind a header, in memory that held `junk`. -/
def behind (junk : Block) (hdr : Header) (length : Nat) (data : Block) : Block :=
  (junk.copy 0 sizeofHeader hdr.image).copy sizeofHeader length data

theorem read_behind (junk : Block) (hdr : Header) (length : Nat) (data : Block) :
    Header.read (behind junk hdr length data) = hdr := by
  refine (Header.read_congr fun k hk => ?_).trans (Header.read_image hdr)
  have hlt : k < 12 := hk
  have hout : ¬ (sizeofHeader ≤ k ∧ k < sizeofHeader + length) := fun h => absurd hk (by omega)
  have hin : 0 ≤ k ∧ k < 0 + sizeofHeader := ⟨Nat.zero_le k, by omega⟩
  rw [behind, Block.copy, if_neg hout, Block.copy, if_pos hin, Nat.sub_zero]

theorem behind_from {junk : Block} {hdr : Header} {length : Nat} {data : Block} {k : Nat}
    (hk : k < length) : (behind junk hdr length data).from sizeofHeader k = data k := by
  have hin : sizeofHeader ≤ sizeofHeader + k ∧ sizeofHeader + k < sizeofHeader + length := by
    omega
  rw [Block.from, behind, Block.copy, if_pos hin, Nat.add_sub_cancel_left]

/-- The buffer that `PostOffice::Send` fills holds the letter of its parcel. -/
theorem letterOf_behind {p : Parcel} {data : Block}
    (hdata : p.data = bytes data p.mailHdr.length.toNat) (netAddr : NetworkAddress)
    (junk : Block) :
    letterOf (p.letter netAddr).pktHdr (behind junk p.mailHdr p.mailHdr.length.toNat data) =
      p.letter netAddr := by
  have hbytes : bytes ((behind junk p.mailHdr p.mailHdr.length.toNat data).from sizeofHeader)
      p.mailHdr.length.toNat = p.data := by
    rw [hdata]
    exact bytes_congr fun k hk => behind_from hk
  simp only [letterOf, read_behind, hbytes]
  rfl

/-- A packet on the wire. -/
abbrev Packet := Fin maxWireSize → UInt8

namespace Packet

/-- What `SendToSocket` takes from a buffer. -/
def ofBlock (b : Block) : Packet := fun k => b k

/-- What `ReadFromSocket` puts into a buffer. -/
def block (p : Packet) : Block := fun k => if h : k < maxWireSize then p ⟨k, h⟩ else 0

def letter (p : Packet) : Letter := letterOf (Header.read p.block) (p.block.from sizeofHeader)

theorem block_ofBlock {b : Block} {k : Nat} (hk : k < maxWireSize) :
    (ofBlock b).block k = b k := dif_pos hk

theorem read_ofBlock (b : Block) : Header.read (ofBlock b).block = Header.read b := by
  refine Header.read_congr fun k hk => block_ofBlock ?_
  have hlt : k < 12 := hk
  show k < 64
  omega

/-- The network sends a letter as it is. -/
theorem letter_ofBlock_behind {hdr : PacketHeader} {body : Block}
    (hsealed : (letterOf hdr body).Sealed) (junk : Block) :
    (ofBlock (behind junk hdr hdr.length.toNat body)).letter = letterOf hdr body := by
  rw [letter, read_ofBlock, read_behind]
  refine (letterOf_congr hsealed fun k hk => ?_).symm
  have hle : hdr.length.toNat ≤ 52 := hsealed.le_maxPacketSize
  have hwire : sizeofHeader + k < maxWireSize := by
    show 12 + k < 64
    omega
  rw [Block.from, block_ofBlock hwire]
  exact (behind_from hk).symm

end Packet

end Network
end Nachos
