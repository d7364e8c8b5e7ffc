import Nachos.Network.PostOffice

/-!
# A machine with its post office

A letter is on its way while it is in the socket, in the inbox of the device,
with the postal worker or in a mail box.  Most steps of a machine move no letter
from its place in line; the others hand the first one on to the next place.
-/

namespace Nachos
namespace Network

open Lib Threads
open FileSys (Block)

/-! ## What is on its way -/

/-- The letter that the postal worker has in hand. -/
def Worker.carried (buffer : Block) : Worker → List Letter
  | .received pktHdr => [letterOf pktHdr buffer]
  | .putAcquire mail => [mail.letter]
  | .append mail => [mail.letter]
  | _ => []

/-- Whether the worker has returned from `P` and not yet called `Network::Receive`. -/
def Worker.beforeReceive : Worker → Int
  | .returned => 1
  | _ => 0

theorem Worker.beforeReceive_nonneg (w : Worker) : 0 ≤ w.beforeReceive := by
  cases w with
  | returned => exact Int.one_nonneg
  | _ => exact Int.le_refl 0

namespace Machine

variable (M : Machine)

def taken (b : MailBoxAddress) : List Letter := (M.boxes b).taken

def messages (b : MailBoxAddress) : List Mail := (M.boxes b).messages

/-- The letter in the inbox of the device. -/
def buffered : List Letter :=
  if M.inHdr.length ≠ 0 then [letterOf M.inHdr M.inbox] else []

/-- The packet in the inbox of the device. -/
def inboxPacket : List Datagram :=
  if M.inHdr.length ≠ 0 then [⟨M.inHdr, bytes M.inbox M.inHdr.length.toNat⟩] else []

/-- The letters that are not yet in a mail box, first come first. -/
def transit : List Letter :=
  M.worker.carried M.buffer ++ M.buffered ++ M.socket.map Packet.letter

/-- The letters on their way to mail box `b`. -/
def carried (b : MailBoxAddress) : List Letter :=
  (M.messages b).map Mail.letter ++ M.transit.filter (·.mailHdr.toAddress = b)

end Machine

/-! ## The invariant of one machine -/

/-- A call that sends has a buffer with the letter of its parcel, and one that received has
a letter from the mail box. -/
def PcOk (m : NetworkAddress) (taken : MailBoxAddress → List Letter) : Pc → Prop
  | .sendAcquire p hdr buffer =>
    (p.letter m).Sealed ∧ hdr = (p.letter m).pktHdr ∧ letterOf hdr buffer = p.letter m
  | .networkSend p hdr buffer =>
    (p.letter m).Sealed ∧ hdr = (p.letter m).pktHdr ∧ letterOf hdr buffer = p.letter m
  | .getRelease box mail => mail.letter ∈ taken box
  | _ => True

theorem PcOk.mono {m : NetworkAddress} {taken taken' : MailBoxAddress → List Letter} {pc : Pc}
    (h : PcOk m taken pc) (hsub : ∀ b, taken b ⊆ taken' b) : PcOk m taken' pc := by
  cases pc with
  | getRelease box mail => exact hsub box h
  | sendAcquire p hdr buffer => exact h
  | networkSend p hdr buffer => exact h
  | _ => trivial

/-- The invariant of the machine at address `m`. -/
structure Sound (m : NetworkAddress) (M : Machine) : Prop where
  transit : ∀ l ∈ M.transit, l.Sealed ∧ l.pktHdr.toAddress = m
  available : M.messageAvailable.value + M.worker.beforeReceive =
    if M.inHdr.length ≠ 0 then 1 else 0
  value : 0 ≤ M.messageAvailable.value
  read : M.history.read = M.history.received ++ M.inboxPacket
  threads : ∀ t, PcOk m M.taken (M.threads t)
  sent : ∀ p ∈ M.history.sent, (p.letter m).Sealed
  returned : ∀ b l, (b, l) ∈ M.history.returned → l ∈ M.taken b

theorem Machine.Initial.sound {m : NetworkAddress} {M : Machine} (h : M.Initial) :
    Sound m M where
  transit l hl := by
    rw [Machine.transit, Machine.buffered, h.worker, h.length, h.socket] at hl
    exact absurd hl List.not_mem_nil
  available := by
    rw [h.messageAvailable, h.worker, h.length]
    rfl
  value := by rw [h.messageAvailable]
  read := by
    rw [Machine.inboxPacket, h.history, h.length]
    rfl
  threads t := by
    rw [h.threads t]
    trivial
  sent p hp := by
    rw [h.history] at hp
    exact absurd hp List.not_mem_nil
  returned b l hl := by
    rw [h.history] at hl
    exact absurd hl List.not_mem_nil

/-- What a step of a machine does to the letters on their way: it keeps them, or takes the
first one for some mail box out of it. -/
structure Moves (M M' : Machine) : Prop where
  sent : M'.history.sent = M.history.sent
  boxes : ∀ b, (M'.carried b = M.carried b ∧ M'.taken b = M.taken b) ∨
    ∃ l, M.carried b = l :: M'.carried b ∧ M'.taken b = M.taken b ++ [l]

/-! ## Quiet steps -/

/-- A step that moves no letter, at least not to another place in line. -/
structure Quiet (m : NetworkAddress) (M M' : Machine) : Prop where
  socket : M'.socket = M.socket
  inHdr : M'.inHdr = M.inHdr
  inbox : M'.inbox = M.inbox
  worker : M'.worker.carried M'.buffer = M.worker.carried M.buffer
  available : M'.messageAvailable.value + M'.worker.beforeReceive =
    M.messageAvailable.value + M.worker.beforeReceive
  value : 0 ≤ M.messageAvailable.value → 0 ≤ M'.messageAvailable.value
  messages : M'.messages = M.messages
  taken : M'.taken = M.taken
  threads : ∀ t, M'.threads t = M.threads t ∨ PcOk m M.taken (M'.threads t)
  sent : M'.history.sent = M.history.sent
  read : M'.history.read = M.history.read
  received : M'.history.received = M.history.received
  returned : ∀ b l, (b, l) ∈ M'.history.returned →
    (b, l) ∈ M.history.returned ∨ l ∈ M.taken b

namespace Quiet

variable {m : NetworkAddress} {M M' M'' : Machine} {t : ThreadId} {box : MailBoxAddress}

theorem refl (m : NetworkAddress) (M : Machine) : Quiet m M M where
  socket := rfl
  inHdr := rfl
  inbox := rfl
  worker := rfl
  available := rfl
  value := id
  messages := rfl
  taken := rfl
  threads _ := .inl rfl
  sent := rfl
  read := rfl
  received := rfl
  returned _ _ := .inl

theorem trans (h : Quiet m M M') (h' : Quiet m M' M'') : Quiet m M M'' where
  socket := h'.socket.trans h.socket
  inHdr := h'.inHdr.trans h.inHdr
  inbox := h'.inbox.trans h.inbox
  worker := h'.worker.trans h.worker
  available := h'.available.trans h.available
  value := h'.value ∘ h.value
  messages := h'.messages.trans h.messages
  taken := h'.taken.trans h.taken
  threads t := by
    rcases h'.threads t with heq | hok
    · rw [heq]
      exact h.threads t
    · rw [h.taken] at hok
      exact .inr hok
  sent := h'.sent.trans h.sent
  read := h'.read.trans h.read
  received := h'.received.trans h.received
  returned b l hl := by
    rcases h'.returned b l hl with hold | hnew
    · exact h.returned b l hold
    · rw [h.taken] at hnew
      exact .inr hnew

theorem moveTo (M : Machine) (t : ThreadId) (pc : Pc) (h : PcOk m M.taken pc) :
    Quiet m M (M.moveTo t pc) :=
  { Quiet.refl m M with
    threads := by
      intro u
      show Function.update M.threads t pc u = _ ∨ PcOk m M.taken (Function.update M.threads t pc u)
      by_cases hu : u = t
      · subst hu
        rw [Function.update_self]
        exact .inr h
      · rw [Function.update_of_ne hu]
        exact .inl rfl }

theorem setBox {B : MailBox} (hm : B.messages = M.messages box) (ht : B.taken = M.taken box) :
    Quiet m M (M.setBox box B) :=
  { Quiet.refl m M with
    messages := by
      funext b
      show (Function.update M.boxes box B b).messages = _
      by_cases hb : b = box
      · subst hb
        rw [Function.update_self]
        exact hm
      · rw [Function.update_of_ne hb]
        rfl
    taken := by
      funext b
      show (Function.update M.boxes box B b).taken = _
      by_cases hb : b = box
      · subst hb
        rw [Function.update_self]
        exact ht
      · rw [Function.update_of_ne hb]
        rfl }

theorem fail (a : PostAssertion) : Quiet m M (M.fail a) := { Quiet.refl m M with }

/-- A step of the worker that leaves the letter in its hand alone. -/
theorem setWorker {w w' : Worker} (h : M.worker = w)
    (hc : w'.carried M.buffer = w.carried M.buffer) (hb : w'.beforeReceive = w.beforeReceive) :
    Quiet m M { M with worker := w' } := by
  subst h
  exact { Quiet.refl m M with
    worker := hc
    available := congrArg (M.messageAvailable.value + ·) hb }

theorem transit (h : Quiet m M M') : M'.transit = M.transit := by
  rw [Machine.transit, Machine.transit, Machine.buffered, Machine.buffered, h.worker, h.inHdr,
    h.inbox, h.socket]

theorem sound (h : Quiet m M M') (hM : Sound m M) : Sound m M' where
  transit := by
    rw [h.transit]
    exact hM.transit
  available := by
    rw [h.available, h.inHdr]
    exact hM.available
  value := h.value hM.value
  read := by
    rw [Machine.inboxPacket, h.read, h.received, h.inHdr, h.inbox]
    exact hM.read
  threads t := by
    rw [h.taken]
    rcases h.threads t with heq | hok
    · rw [heq]
      exact hM.threads t
    · exact hok
  sent := by
    rw [h.sent]
    exact hM.sent
  returned b l hl := by
    rw [h.taken]
    rcases h.returned b l hl with hold | hnew
    · exact hM.returned b l hold
    · exact hnew

theorem moves (h : Quiet m M M') : Moves M M' where
  sent := h.sent
  boxes b := .inl ⟨by rw [Machine.carried, Machine.carried, h.messages, h.transit],
    congrFun h.taken b⟩

end Quiet

/-! ### The quiet steps of the code -/

namespace Machine

variable {m : NetworkAddress} {numBoxes : MailBoxAddress} {M : Machine} {t : ThreadId}
  {box : MailBoxAddress}

theorem quiet_send (pktHdr : PacketHeader) (mailHdr : MailHeader) (data junk : Block) :
    Quiet m M (M.send m numBoxes t pktHdr mailHdr data junk) := by
  unfold send
  split
  · exact Quiet.fail _
  split
  · exact Quiet.fail _
  rename_i hlength _
  let p : Parcel :=
    { toAddress := pktHdr.toAddress
      mailHdr := mailHdr
      data := bytes data mailHdr.length.toNat }
  have hlt : p.mailHdr.length.toNat ≤ maxMailSize := not_not.mp hlength
  exact Quiet.moveTo M t (.sendAcquire p _ _)
    ⟨Parcel.letter_sealed hlt m, rfl, letterOf_behind (p := p) rfl m junk⟩

theorem quiet_acquireSend {p : Parcel} {hdr : PacketHeader} {buffer : Block}
    (h : PcOk m M.taken (.sendAcquire p hdr buffer)) :
    Quiet m M (M.acquireSend t p hdr buffer) :=
  { Quiet.moveTo M t (.networkSend p hdr buffer) h with }

theorem quiet_testSent : Quiet m M (M.testSent t) := by
  unfold testSent
  split
  · exact { Quiet.moveTo M t .sendAsleep trivial with }
  · exact { Quiet.moveTo M t .sendRelease trivial with }

theorem quiet_pSent : Quiet m M (M.pSent t) := by
  unfold pSent
  split
  · exact quiet_testSent
  · exact Quiet.fail _

theorem quiet_releaseSend : Quiet m M (M.releaseSend t) :=
  { Quiet.moveTo M t .outside trivial with }

theorem quiet_readySender (woken : Option ThreadId) : Quiet m M (M.readySender woken) := by
  unfold readySender
  split
  · exact Quiet.refl m M
  · split
    · exact Quiet.moveTo M _ _ trivial
    · exact Quiet.refl m M

theorem quiet_packetSent : Quiet m M M.packetSent := by
  unfold packetSent
  split
  · exact { quiet_readySender (m := m) M.messageSent.post.2 with }
  · exact Quiet.fail _

theorem quiet_sendDone : Quiet m M M.sendDone := by
  have hidle : Quiet m M { M with sendBusy := false, sendsDone := M.sendsDone - 1 } :=
    { Quiet.refl m M with }
  exact hidle.trans quiet_packetSent

theorem quiet_readyWorker (woken : Option ThreadId) : Quiet m M (M.readyWorker woken) := by
  unfold readyWorker
  split
  · exact Quiet.refl m M
  · split
    · rename_i h
      exact Quiet.setWorker h rfl rfl
    · exact Quiet.refl m M

theorem beforeReceive_readyWorker (woken : Option ThreadId) :
    (M.readyWorker woken).worker.beforeReceive = M.worker.beforeReceive := by
  unfold readyWorker
  split
  · rfl
  · split
    · rename_i h
      rw [h]
      rfl
    · rfl

/-- The worker takes from the value of the semaphore what it then counts for itself. -/
theorem quiet_testAvailable (hc : M.worker.carried M.buffer = [])
    (hb : M.worker.beforeReceive = 0) : Quiet m M M.testAvailable := by
  unfold testAvailable
  by_cases hv : M.messageAvailable.value = 0
  · rw [Semaphore.test_zero hv]
    refine { Quiet.refl m M with worker := hc.symm, available := ?_ }
    rw [hb]
    rfl
  · rw [Semaphore.test_nonzero hv]
    refine { Quiet.refl m M with worker := hc.symm, available := ?_, value := ?_ }
    · show M.messageAvailable.value - 1 + 1 = _
      rw [hb]
      omega
    · intro hnonneg
      show 0 ≤ M.messageAvailable.value - 1
      omega

theorem quiet_pAvailable (h : M.worker = .p) : Quiet m M M.pAvailable := by
  unfold pAvailable
  split
  · exact quiet_testAvailable (by rw [h]; rfl) (by rw [h]; rfl)
  · exact Quiet.fail _

theorem quiet_deliver {pktHdr : PacketHeader} (h : M.worker = .received pktHdr)
    (junk : Block) : Quiet m M (M.deliver numBoxes pktHdr junk) := by
  unfold deliver
  dsimp only
  split
  · exact Quiet.fail _
  split
  · exact Quiet.fail _
  exact Quiet.setWorker h (congrArg (fun l => [l]) (Mail.letter_new ..)) rfl

theorem quiet_acquirePut {mail : Mail} (h : M.worker = .putAcquire mail) :
    Quiet m M (M.acquirePut mail) := by
  let N : Machine := M.setBox mail.mailHdr.toAddress
    { M.boxes mail.mailHdr.toAddress with lock := some postalWorker }
  have hbox : Quiet m M N := Quiet.setBox rfl rfl
  exact hbox.trans (Quiet.setWorker (M := N) h rfl rfl)

theorem quiet_signal (h : M.worker = .signal box) : Quiet m M (M.signal t box) := by
  let N : Machine := (M.moveTo t (.getAcquire box)).setBox box
    { M.boxes box with waiting := (M.boxes box).waiting.erase t }
  have hbox : Quiet m M N :=
    (Quiet.moveTo M t (.getAcquire box) trivial).trans (Quiet.setBox rfl rfl)
  exact hbox.trans (Quiet.setWorker (M := N) h rfl rfl)

theorem quiet_releasePut (h : M.worker = .release box) : Quiet m M (M.releasePut box) := by
  let N : Machine := M.setBox box { M.boxes box with lock := none }
  have hbox : Quiet m M N := Quiet.setBox rfl rfl
  exact hbox.trans (Quiet.setWorker (M := N) h rfl rfl)

theorem quiet_get : Quiet m M (M.get numBoxes t box) := by
  unfold get
  split
  · exact Quiet.moveTo M _ _ trivial
  · exact Quiet.fail _

theorem quiet_acquireGet : Quiet m M (M.acquireGet t box) :=
  (Quiet.moveTo M t (.getTest box) trivial).trans (Quiet.setBox rfl rfl)

theorem quiet_releaseGet {mail : Mail} (h : mail.letter ∈ M.taken box) :
    Quiet m M (M.releaseGet t box mail) := by
  let N : Machine := M.setBox box { M.boxes box with lock := none }
  have hbox : Quiet m M N := Quiet.setBox rfl rfl
  unfold releaseGet
  dsimp only
  split
  · refine hbox.trans { Quiet.moveTo N t .outside trivial with returned := ?_ }
    intro b l hl
    rcases List.mem_append.mp hl with hold | hnew
    · exact .inl hold
    · obtain ⟨rfl, rfl⟩ := Prod.mk.inj (List.mem_singleton.mp hnew)
      refine .inr ?_
      rw [hbox.taken]
      exact h
  · exact hbox.trans (Quiet.fail _)

end Machine

/-! ## The steps that move a letter -/

/-- A step that moves no letter out of the way to its mail box keeps the whole line. -/
theorem Moves.of_transit {M M' : Machine} (hsent : M'.history.sent = M.history.sent)
    (hmessages : M'.messages = M.messages) (htaken : M'.taken = M.taken)
    (htransit : M'.transit = M.transit) : Moves M M' where
  sent := hsent
  boxes b := by
    refine .inl ⟨?_, congrFun htaken b⟩
    rw [Machine.carried, Machine.carried, hmessages, htransit]

/-- The packet is in the inbox, and the handler has yet to run. -/
def Machine.withPacket (M : Machine) (packet : Packet) (rest : List Packet) : Machine :=
  let inHdr : PacketHeader := Header.read packet.block
  let body : Block := packet.block.from sizeofHeader
  { M with
    socket := rest
    inHdr := inHdr
    inbox := M.inbox.copy 0 inHdr.length.toNat body
    history :=
      { M.history with
        read := M.history.read ++ [⟨inHdr, bytes body inHdr.length.toNat⟩] } }

theorem Machine.inbox_withPacket (M : Machine) (packet : Packet) (rest : List Packet) {k : Nat}
    (hk : k < (Header.read packet.block : PacketHeader).length.toNat) :
    packet.block.from sizeofHeader k = (M.withPacket packet rest).inbox k := by
  have hin : 0 ≤ k ∧ k < 0 + (Header.read packet.block : PacketHeader).length.toNat := by omega
  exact ((if_pos hin).trans (by rw [Nat.sub_zero])).symm

/-- Out of the socket and into the inbox, the letter stays on its way. -/
theorem Machine.transit_withPacket {M : Machine} {packet : Packet} {rest : List Packet}
    (hempty : M.inHdr.length = 0) (hsocket : M.socket = packet :: rest)
    (hsealed : packet.letter.Sealed)
    (hpositive : (Header.read packet.block : PacketHeader).length ≠ 0) :
    (M.withPacket packet rest).transit = M.transit := by
  have hletter : letterOf (Header.read packet.block) (M.withPacket packet rest).inbox =
      packet.letter :=
    (letterOf_congr hsealed fun k hk => M.inbox_withPacket packet rest hk).symm
  have hbuffered : (M.withPacket packet rest).buffered = [packet.letter] :=
    (if_pos hpositive).trans (congrArg (fun l => [l]) hletter)
  have hnone : M.buffered = [] := by
    rw [Machine.buffered, if_neg (not_not_intro hempty)]
  rw [Machine.transit, Machine.transit, hbuffered, hnone, hsocket, List.append_nil,
    List.map_cons, List.append_assoc, List.singleton_append]
  rfl

namespace Sound

variable {m : NetworkAddress} {M : Machine} {t : ThreadId} {box : MailBoxAddress}

/-- The device reads a packet when the inbox is empty, and wakes the worker for it. -/
theorem readPacket (h : Sound m M) (hempty : M.inHdr.length = 0) {packet : Packet}
    {rest : List Packet} (hsocket : M.socket = packet :: rest) :
    Sound m (M.readPacket m packet rest) ∧ Moves M (M.readPacket m packet rest) := by
  obtain ⟨hsealed, hto⟩ := h.transit packet.letter (by
    rw [Machine.transit, hsocket]
    exact List.mem_append_right _ List.mem_cons_self)
  let inHdr : PacketHeader := Header.read packet.block
  let body : Block := packet.block.from sizeofHeader
  have hpositive : inHdr.length ≠ 0 := by
    intro hzero
    have hle : 12 ≤ inHdr.length.toNat := hsealed.sizeofHeader_le
    rw [hzero] at hle
    exact absurd hle (by decide)
  have havailable := h.available
  rw [if_neg (not_not_intro hempty)] at havailable
  have hbefore := M.worker.beforeReceive_nonneg
  have hvalue : M.messageAvailable.value = 0 := by
    have := h.value
    omega
  let N : Machine := M.withPacket packet rest
  have hN : N.transit = M.transit := Machine.transit_withPacket hempty hsocket hsealed hpositive
  have hready := Machine.quiet_readyWorker (m := m) (M := N) N.messageAvailable.post.2
  have heq : M.readPacket m packet rest =
      { N.readyWorker N.messageAvailable.post.2 with
        messageAvailable := N.messageAvailable.post.1 } := by
    have hnonneg : 0 ≤ N.messageAvailable.value := h.value
    have hfits : inHdr.toAddress = m ∧ inHdr.length.toNat ≤ maxPacketSize :=
      ⟨hto, hsealed.le_maxPacketSize⟩
    rw [Machine.readPacket, if_pos hfits]
    exact if_pos hnonneg
  rw [heq]
  refine ⟨⟨?_, ?_, ?_, ?_, fun u => ?_, ?_, fun b l hl => ?_⟩,
    Moves.of_transit hready.sent hready.messages hready.taken (hready.transit.trans hN)⟩
  · show ∀ l ∈ (N.readyWorker N.messageAvailable.post.2).transit, _
    rw [hready.transit, hN]
    exact h.transit
  · show N.messageAvailable.value + 1 +
      (N.readyWorker N.messageAvailable.post.2).worker.beforeReceive =
        if (N.readyWorker N.messageAvailable.post.2).inHdr.length ≠ 0 then 1 else 0
    rw [Machine.beforeReceive_readyWorker, hready.inHdr]
    refine Eq.trans ?_ (if_pos hpositive).symm
    show M.messageAvailable.value + 1 + M.worker.beforeReceive = 1
    omega
  · show 0 ≤ M.messageAvailable.value + 1
    omega
  · show (N.readyWorker N.messageAvailable.post.2).history.read =
      (N.readyWorker N.messageAvailable.post.2).history.received ++
        (N.readyWorker N.messageAvailable.post.2).inboxPacket
    have hpacket : N.inboxPacket = [⟨inHdr, bytes body inHdr.length.toNat⟩] := by
      rw [bytes_congr fun k hk => M.inbox_withPacket packet rest hk]
      exact if_pos hpositive
    have hread : M.history.read = M.history.received := by
      rw [h.read, Machine.inboxPacket, if_neg (not_not_intro hempty), List.append_nil]
    rw [Machine.inboxPacket, hready.read, hready.received, hready.inHdr, hready.inbox]
    show M.history.read ++ [_] = M.history.received ++ N.inboxPacket
    rw [hpacket, hread]
  · show PcOk m (N.readyWorker N.messageAvailable.post.2).taken _
    rw [hready.taken]
    rcases hready.threads u with hold | hnew
    · show PcOk m M.taken ((N.readyWorker N.messageAvailable.post.2).threads u)
      rw [hold]
      exact h.threads u
    · exact hnew
  · show ∀ p ∈ (N.readyWorker N.messageAvailable.post.2).history.sent, _
    rw [hready.sent]
    exact h.sent
  · show l ∈ (N.readyWorker N.messageAvailable.post.2).taken b
    rw [hready.taken]
    rcases hready.returned b l hl with hold | hnew
    · exact h.returned b l hold
    · exact hnew

theorem checkPktAvail (h : Sound m M) :
    Sound m (M.checkPktAvail m) ∧ Moves M (M.checkPktAvail m) := by
  unfold Machine.checkPktAvail
  by_cases hempty : M.inHdr.length = 0
  · rw [if_neg (not_not_intro hempty)]
    split
    · exact ⟨h, (Quiet.refl m M).moves⟩
    · rename_i hsocket
      exact h.readPacket hempty hsocket
  · rw [if_pos hempty]
    exact ⟨h, (Quiet.refl m M).moves⟩

/-- The worker returned from `P`, so there is a packet in the inbox, and it is the one the
worker gets. -/
theorem receive (h : Sound m M) (hworker : M.worker = .returned) :
    Sound m M.receive ∧ Moves M M.receive := by
  have havailable := h.available
  rw [hworker] at havailable
  have hfull : M.inHdr.length ≠ 0 := by
    intro hempty
    rw [if_neg (not_not_intro hempty)] at havailable
    have hnonneg := h.value
    have hone : M.messageAvailable.value + 1 = 0 := havailable
    omega
  rw [if_pos hfull] at havailable
  have hbuffered : M.buffered = [letterOf M.inHdr M.inbox] := if_pos hfull
  have hsealed : (letterOf M.inHdr M.inbox).Sealed := by
    refine (h.transit _ ?_).1
    rw [Machine.transit, hbuffered]
    exact List.mem_append_left _ (List.mem_append_right _ (List.mem_singleton.mpr rfl))
  have hbuffer : M.receive.buffer = M.buffer.copy 0 M.inHdr.length.toNat M.inbox := if_pos hfull
  have hcopied : letterOf M.inHdr M.receive.buffer = letterOf M.inHdr M.inbox := by
    refine (letterOf_congr hsealed fun k hk => ?_).symm
    have hin : 0 ≤ k ∧ k < 0 + M.inHdr.length.toNat := by omega
    rw [hbuffer, Block.copy, if_pos hin, Nat.sub_zero]
  have htransit : M.receive.transit = M.transit := by
    rw [Machine.transit, Machine.transit, hbuffered, hworker]
    show [letterOf M.inHdr M.receive.buffer] ++ [] ++ M.socket.map Packet.letter = _
    rw [hcopied]
    rfl
  refine ⟨⟨?_, ?_, h.value, ?_, h.threads, h.sent, h.returned⟩,
    Moves.of_transit rfl rfl rfl htransit⟩
  · rw [htransit]
    exact h.transit
  · show M.messageAvailable.value + 0 = 0
    have hone : M.messageAvailable.value + 1 = 1 := havailable
    omega
  · show M.history.read = M.history.received ++ [_] ++ []
    rw [h.read, Machine.inboxPacket, if_pos hfull, List.append_nil]

/-- The worker puts its letter at the end of the line in the mail box. -/
theorem append (h : Sound m M) {mail : Mail} (hworker : M.worker = .append mail) :
    Sound m (M.append mail) ∧ Moves M (M.append mail) := by
  have htransit : M.transit = mail.letter :: (M.append mail).transit := by
    rw [Machine.transit, hworker]
    rfl
  have htaken : (M.append mail).taken = M.taken := by
    funext b
    show (Function.update M.boxes _ _ b).taken = (M.boxes b).taken
    by_cases hb : b = mail.mailHdr.toAddress
    · subst hb
      rw [Function.update_self]
    · rw [Function.update_of_ne hb]
  have hcarried : ∀ b, (M.append mail).carried b = M.carried b := by
    intro b
    rw [Machine.carried, Machine.carried, htransit]
    by_cases hb : b = mail.mailHdr.toAddress
    · subst hb
      have hmessages : (M.append mail).messages mail.mailHdr.toAddress =
          M.messages mail.mailHdr.toAddress ++ [mail] := by
        show (Function.update M.boxes _ _ _).messages = _
        rw [Function.update_self]
        rfl
      have hhere : (decide (mail.letter.mailHdr.toAddress = mail.mailHdr.toAddress)) = true :=
        decide_eq_true rfl
      rw [hmessages, List.map_append, List.append_assoc, List.filter_cons, if_pos hhere]
      rfl
    · have hmessages : (M.append mail).messages b = M.messages b := by
        show (Function.update M.boxes _ _ b).messages = (M.boxes b).messages
        rw [Function.update_of_ne hb]
      have helse : ¬ (decide (mail.letter.mailHdr.toAddress = b)) = true := by
        rw [decide_eq_true_eq]
        exact fun e => hb e.symm
      rw [hmessages, List.filter_cons, if_neg helse]
  refine ⟨⟨?_, ?_, h.value, h.read, ?_, h.sent, ?_⟩, rfl,
    fun b => .inl ⟨hcarried b, congrFun htaken b⟩⟩
  · intro l hl
    exact h.transit l (by rw [htransit]; exact List.mem_cons_of_mem _ hl)
  · have havailable := h.available
    rw [hworker] at havailable
    exact havailable
  · rw [htaken]
    exact h.threads
  · rw [htaken]
    exact h.returned

/-- A thread takes the first letter out of a mail box, or waits. -/
theorem testGet (h : Sound m M) : Sound m (M.testGet t box) ∧ Moves M (M.testGet t box) := by
  unfold Machine.testGet
  split
  · have hquiet : Quiet m M ((M.moveTo t (.getWaiting box)).setBox box
        { M.boxes box with lock := none, waiting := (M.boxes box).waiting ++ [t] }) :=
      (Quiet.moveTo M t (.getWaiting box) trivial).trans (Quiet.setBox rfl rfl)
    exact ⟨hquiet.sound h, hquiet.moves⟩
  · rename_i mail rest hmessages
    let B : MailBox :=
      { M.boxes box with messages := rest, taken := (M.boxes box).taken ++ [mail.letter] }
    let N : Machine := (M.moveTo t (.getRelease box mail)).setBox box B
    show Sound m N ∧ Moves M N
    have hself : N.boxes box = B := by
      show Function.update M.boxes box B box = B
      rw [Function.update_self]
    have hother : ∀ b, b ≠ box → N.boxes b = M.boxes b := by
      intro b hb
      show Function.update M.boxes box B b = M.boxes b
      rw [Function.update_of_ne hb]
    have htaken : ∀ b, M.taken b ⊆ N.taken b := by
      intro b
      by_cases hb : b = box
      · subst hb
        rw [Machine.taken, Machine.taken, hself]
        exact List.subset_append_left _ _
      · rw [Machine.taken, Machine.taken, hother b hb]
        exact List.Subset.refl _
    refine ⟨⟨h.transit, h.available, h.value, h.read, fun u => ?_, h.sent, fun b l hl => ?_⟩,
      rfl, fun b => ?_⟩
    · show PcOk m N.taken (Function.update M.threads t (.getRelease box mail) u)
      by_cases hu : u = t
      · subst hu
        rw [Function.update_self]
        show mail.letter ∈ (N.boxes box).taken
        rw [hself]
        exact List.mem_concat_self
      · rw [Function.update_of_ne hu]
        exact (h.threads u).mono htaken
    · exact htaken b (h.returned b l hl)
    · by_cases hb : b = box
      · subst hb
        refine .inr ⟨mail.letter, ?_, ?_⟩
        · rw [Machine.carried, Machine.carried, Machine.messages, Machine.messages, hself,
            hmessages]
          rfl
        · rw [Machine.taken, Machine.taken, hself]
      · refine .inl ⟨?_, ?_⟩
        · rw [Machine.carried, Machine.carried, Machine.messages, Machine.messages,
            hother b hb]
          rfl
        · rw [Machine.taken, Machine.taken, hother b hb]

/-- Every step of a machine. -/
theorem step (h : Sound m M) {numBoxes : MailBoxAddress} {M' : Machine}
    (hstep : M.Step m numBoxes M') : Sound m M' ∧ Moves M M' := by
  have hquiet : ∀ {N}, Quiet m M N → Sound m N ∧ Moves M N := fun q => ⟨q.sound h, q.moves⟩
  cases hstep with
  | send ht _ pktHdr mailHdr data junk => exact hquiet (Machine.quiet_send ..)
  | @acquireSend t p hdr buffer ht hl =>
    have hok := h.threads t
    rw [ht] at hok
    exact hquiet (Machine.quiet_acquireSend hok)
  | pSent ht => exact hquiet Machine.quiet_pSent
  | testSent ht => exact hquiet Machine.quiet_testSent
  | releaseSend ht => exact hquiet Machine.quiet_releaseSend
  | sendDone hd => exact hquiet Machine.quiet_sendDone
  | poll => exact h.checkPktAvail
  | pAvailable hw => exact hquiet (Machine.quiet_pAvailable hw)
  | testAvailable hw =>
    exact hquiet (Machine.quiet_testAvailable (by rw [hw]; rfl) (by rw [hw]; rfl))
  | receive hw => exact h.receive hw
  | deliver hw junk => exact hquiet (Machine.quiet_deliver hw junk)
  | acquirePut hw hl => exact hquiet (Machine.quiet_acquirePut hw)
  | append hw => exact h.append hw
  | signal hw ht => exact hquiet (Machine.quiet_signal hw)
  | signalNone hw hn => exact hquiet (Quiet.setWorker hw rfl rfl)
  | releasePut hw => exact hquiet (Machine.quiet_releasePut hw)
  | get ht _ box => exact hquiet Machine.quiet_get
  | acquireGet ht hl => exact hquiet Machine.quiet_acquireGet
  | testGet ht => exact h.testGet
  | @releaseGet t box mail ht =>
    have hok := h.threads t
    rw [ht] at hok
    exact hquiet (Machine.quiet_releaseGet hok)
  | powerdown => exact hquiet { Quiet.refl m M with }

end Sound

end Network
end Nachos
