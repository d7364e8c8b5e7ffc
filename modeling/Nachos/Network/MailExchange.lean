import Nachos.Network.MailTest

/-!
# A complete exchange

Two machines that run `MailTest` with each other can come to its end: when the network loses
nothing, each gets the message and the acknowledgement of the other one and powers down.
-/

namespace Nachos
namespace Network

open Lib Threads
open FileSys (Block)

namespace MailTest

/-! ## Machines at rest -/

/-- `main` is not in the post office, and nothing is going on there: `sock` are the letters in
the socket, `mail` those in the mail boxes, and `last` is what `Receive` copied out last. -/
structure Rests (M : Machine) (sock : List Letter) (mail : MailBoxAddress → List Letter)
    (last : Option Letter) : Prop where
  running : M.running = true
  sendBusy : M.sendBusy = false
  messageSent : M.messageSent = ⟨0, []⟩
  messageAvailable : M.messageAvailable = ⟨0, []⟩
  sendLock : M.sendLock = none
  length : M.inHdr.length = 0
  worker : M.worker = .p
  lock : ∀ b, (M.boxes b).lock = none
  waiting : ∀ b, (M.boxes b).waiting = []
  out : M.threads main = .outside
  socket : M.socket.map Packet.letter = sock
  messages : ∀ b, (M.boxes b).messages.map Mail.letter = mail b
  last : lastLetter M = last

theorem Rests.start : Rests Machine.start [] (fun _ => []) none :=
  ⟨rfl, rfl, rfl, rfl, rfl, rfl, rfl, fun _ => rfl, fun _ => rfl, rfl, rfl, fun _ => rfl, rfl⟩

/-- A packet is put into the socket. -/
theorem Rests.deposit {M : Machine} {sock : List Letter} {mail : MailBoxAddress → List Letter}
    {last : Option Letter} (h : Rests M sock mail last) (packet : Packet) :
    Rests (M.deposit packet) (sock ++ [packet.letter]) mail last :=
  { h with
    socket := by
      show (M.socket ++ [packet]).map Packet.letter = _
      rw [List.map_append, h.socket]
      rfl }

/-- What a machine does by itself while its threads call nothing. -/
def Goes (m : NetworkAddress) : Machine → Machine → Prop :=
  Relation.ReflTransGen fun M M' =>
    M.running = true ∧ M.Step m nBoxes M' ∧ ¬ Call M m M'

section Machines

variable {m : NetworkAddress} {M M' M'' : Machine} {sock : List Letter}
  {mail : MailBoxAddress → List Letter} {last : Option Letter}

theorem Goes.refl : Goes m M M := Relation.ReflTransGen.refl

theorem Goes.step (h : Goes m M M') (hrun : M'.running = true) (hstep : M'.Step m nBoxes M'')
    (hfailed : M''.failed = M'.failed) (hrunning : M''.running = M'.running)
    (hthreads : ∀ t, M'.threads t = .outside → M''.threads t = .outside) : Goes m M M'' :=
  h.tail ⟨hrun, hstep, not_call hfailed hrunning hrun hthreads⟩

/-- The device reads the packet at the front of the socket. -/
theorem Rests.poll {packet : Packet} {rest : List Packet} (h : Rests M sock mail last)
    (hsocket : M.socket = packet :: rest) (hsealed : packet.letter.Sealed)
    (hto : packet.letter.pktHdr.toAddress = m) :
    M.checkPktAvail m = { M.withPacket packet rest with messageAvailable := ⟨1, []⟩ } := by
  have hfits : (Header.read packet.block).toAddress = m ∧
      (Header.read packet.block).length.toNat ≤ maxPacketSize :=
    ⟨hto, hsealed.le_maxPacketSize⟩
  have hvalue : 0 ≤ M.messageAvailable.value := by rw [h.messageAvailable]
  unfold Machine.checkPktAvail
  rw [if_neg (not_not_intro h.length), hsocket]
  show M.readPacket m packet rest = _
  rw [Machine.readPacket, if_pos hfits, Machine.incomingPacket, if_pos hvalue]
  dsimp only
  rw [h.messageAvailable]
  rfl

/-- The letter that the worker gets is the one in the packet. -/
theorem letter_receive {packet : Packet} {rest : List Packet} (hsealed : packet.letter.Sealed)
    (hpositive : (Header.read packet.block : PacketHeader).length ≠ 0) :
    letterOf (Header.read packet.block) (M.withPacket packet rest).receive.buffer =
      packet.letter := by
  refine (letterOf_congr hsealed fun k hk => ?_).symm
  have hin : 0 ≤ k ∧ k < 0 + (Header.read packet.block : PacketHeader).length.toNat := by omega
  have hbuffer : (M.withPacket packet rest).receive.buffer =
      M.buffer.copy 0 (Header.read packet.block : PacketHeader).length.toNat
        (M.withPacket packet rest).inbox := if_pos hpositive
  rw [hbuffer, Block.copy, if_pos hin, Nat.sub_zero]
  exact M.inbox_withPacket packet rest hk

/-- The worker gets the letter at the front of the socket. -/
theorem Rests.fetches {l : Letter} (h : Rests M (l :: sock) mail last) (hsealed : l.Sealed)
    (hto : l.pktHdr.toAddress = m) (hbox : Machine.IsBox nBoxes l.mailHdr.toAddress) :
    ∃ M' post, Goes m M M' ∧ M'.worker = .putAcquire post ∧ post.letter = l ∧
      Rests { M' with worker := .p } sock mail last := by
  obtain ⟨packet, rest, hsocket, rfl, hrest⟩ := List.map_eq_cons_iff.mp h.socket
  have hpositive : (Header.read packet.block : PacketHeader).length ≠ 0 := by
    intro hzero
    have hle : sizeofHeader ≤ (Header.read packet.block : PacketHeader).length.toNat :=
      hsealed.sizeofHeader_le
    rw [hzero] at hle
    exact absurd hle (by decide)
  let M₁ : Machine := { M.withPacket packet rest with messageAvailable := ⟨1, []⟩ }
  let M₂ : Machine := { M₁ with worker := .returned, messageAvailable := ⟨0, []⟩ }
  let M₃ : Machine := M₂.receive
  let post : Mail := Mail.new (fun _ => 0) (Header.read packet.block) (Header.read M₃.buffer)
    (M₃.buffer.from sizeofHeader)
  have hletter : letterOf (Header.read packet.block) M₃.buffer = packet.letter :=
    @letter_receive M packet rest hsealed hpositive
  have hhdr : Header.read M₃.buffer = packet.letter.mailHdr := congrArg Letter.mailHdr hletter
  have hdeliver : M₃.deliver nBoxes (Header.read packet.block) (fun _ => 0) =
      { M₃ with worker := .putAcquire post } := by
    unfold Machine.deliver
    dsimp only
    rw [if_neg (not_not_intro (hhdr ▸ hbox)), if_neg (not_not_intro (hhdr ▸ hsealed.bounded))]
  have hgoes : Goes m M { M₃ with worker := .putAcquire post } := by
    have h₁ : Goes m M M₁ := by
      have hstep := @Machine.Step.poll M m nBoxes
      rw [h.poll hsocket hsealed hto] at hstep
      exact Goes.step .refl h.running hstep rfl rfl fun _ => id
    have h₂ : Goes m M M₂ := h₁.step h.running (.pAvailable h.worker) rfl rfl fun _ => id
    have h₃ : Goes m M M₃ := h₂.step h.running (.receive rfl) rfl rfl fun _ => id
    have hstep := @Machine.Step.deliver M₃ m nBoxes (Header.read packet.block) rfl fun _ => 0
    rw [hdeliver] at hstep
    exact h₃.step h.running hstep rfl rfl fun _ => id
  exact ⟨_, post, hgoes, rfl, (Mail.letter_new ..).trans hletter,
    { h with messageAvailable := rfl, length := rfl, worker := rfl, socket := hrest }⟩

/-- A mail box that nobody works on, in the place of another one. -/
theorem Rests.setBox (h : Rests M sock mail last) {b : MailBoxAddress} {B : MailBox}
    (hlock : B.lock = none) (hwaiting : B.waiting = []) :
    Rests (M.setBox b B) sock (Function.update mail b (B.messages.map Mail.letter)) last := by
  have hset : ∀ b', (M.setBox b B).boxes b' = if b' = b then B else M.boxes b' :=
    fun b' => Function.update_apply ..
  refine { h with lock := ?_, waiting := ?_, messages := ?_ }
  all_goals
    intro b'
    rw [hset]
    by_cases hb : b' = b
  · rw [if_pos hb]
    exact hlock
  · rw [if_neg hb]
    exact h.lock b'
  · rw [if_pos hb]
    exact hwaiting
  · rw [if_neg hb]
    exact h.waiting b'
  · rw [if_pos hb, hb, Function.update_self]
  · rw [if_neg hb, Function.update_of_ne hb]
    exact h.messages b'

/-- The worker has come to `w`, at mail box `b`, which is now `B`. -/
def putting (M : Machine) (b : MailBoxAddress) (B : MailBox) (w : Worker) : Machine :=
  { M.setBox b B with worker := w }

theorem putting_box (b : MailBoxAddress) (B : MailBox) (w : Worker) :
    (putting M b B w).boxes b = B :=
  Function.update_self ..

theorem putting_setBox (b : MailBoxAddress) (B B' : MailBox) (w w' : Worker) :
    { (putting M b B w).setBox b B' with worker := w' } = putting M b B' w' := by
  unfold putting Machine.setBox
  dsimp only
  rw [Function.update_idem]

theorem acquirePut_putting (post : Mail) :
    M.acquirePut post = putting M post.mailHdr.toAddress
      { M.boxes post.mailHdr.toAddress with lock := some postalWorker } (.append post) :=
  rfl

theorem append_putting (post : Mail) (B : MailBox) (w : Worker) :
    (putting M post.mailHdr.toAddress B w).append post = putting M post.mailHdr.toAddress
      { B with messages := B.messages ++ [post] } (.signal post.mailHdr.toAddress) := by
  rw [Machine.append, putting_box, putting_setBox]

theorem releasePut_putting (b : MailBoxAddress) (B : MailBox) (w : Worker) :
    (putting M b B w).releasePut b = putting M b { B with lock := none } .p := by
  rw [Machine.releasePut, putting_box, putting_setBox]

/-- The worker goes on. -/
theorem Goes.worker (h : Goes m M M') (hrun : M'.running = true) {M₁ : Machine}
    (hstep : M'.Step m nBoxes M₁) (heq : M₁ = M'') (hfailed : M''.failed = M'.failed)
    (hrunning : M''.running = M'.running) (hthreads : M''.threads = M'.threads) :
    Goes m M M'' := by
  subst heq
  refine h.step hrun hstep hfailed hrunning fun t ht => ?_
  rw [hthreads]
  exact ht

/-- The worker puts the letter that it has into its mail box. -/
theorem Rests.puts {post : Mail} (hworker : M.worker = .putAcquire post)
    (h : Rests { M with worker := .p } sock mail last) :
    ∃ M', Goes m M M' ∧ Rests M' sock (Function.update mail post.mailHdr.toAddress
      (mail post.mailHdr.toAddress ++ [post.letter])) last := by
  have hrun : M.running = true := h.running
  have hlock : (M.boxes post.mailHdr.toAddress).lock = none := h.lock _
  have hnone : (M.boxes post.mailHdr.toAddress).waiting = [] := h.waiting _
  let B : MailBox :=
    { M.boxes post.mailHdr.toAddress with
      messages := (M.boxes post.mailHdr.toAddress).messages ++ [post] }
  have hbox : B.messages.map Mail.letter = mail post.mailHdr.toAddress ++ [post.letter] := by
    rw [← h.messages post.mailHdr.toAddress]
    exact List.map_append
  have hacquire := Goes.refl.worker (m := m) hrun (.acquirePut hworker hlock)
    (acquirePut_putting post) rfl rfl rfl
  have happend := hacquire.worker hrun (.append rfl) (append_putting ..) rfl rfl rfl
  have hsignal := happend.worker hrun
    (.signalNone rfl ((congrArg MailBox.waiting (putting_box ..)).trans hnone))
    (rfl : _ = putting M post.mailHdr.toAddress { B with lock := some postalWorker }
      (.release post.mailHdr.toAddress)) rfl rfl rfl
  have hrelease := hsignal.worker hrun (.releasePut rfl) (releasePut_putting ..) rfl rfl rfl
  have hrests := h.setBox (b := post.mailHdr.toAddress) (B := { B with lock := none }) rfl hnone
  rw [hbox] at hrests
  exact ⟨_, hrelease, hrests⟩

/-- The post office delivers the letter at the front of the socket to its mail box. -/
theorem Rests.delivers {l : Letter} (h : Rests M (l :: sock) mail last) (hsealed : l.Sealed)
    (hto : l.pktHdr.toAddress = m) (hbox : Machine.IsBox nBoxes l.mailHdr.toAddress) :
    ∃ M', Goes m M M' ∧ Rests M' sock (Function.update mail l.mailHdr.toAddress
      (mail l.mailHdr.toAddress ++ [l])) last := by
  obtain ⟨M₁, post, hfetch, hworker, rfl, hrests⟩ := h.fetches hsealed hto hbox
  obtain ⟨M₂, hput, hdone⟩ := hrests.puts (m := m) hworker
  exact ⟨M₂, hfetch.trans hput, hdone⟩

/-! ## The calls of `main` -/

/-- `main` has come to `pc`, at mail box `b`, which is now `B`. -/
def getting (M : Machine) (b : MailBoxAddress) (B : MailBox) (pc : Pc) : Machine :=
  (M.moveTo main pc).setBox b B

theorem getting_box (b : MailBoxAddress) (B : MailBox) (pc : Pc) :
    (getting M b B pc).boxes b = B :=
  Function.update_self ..

theorem getting_threads (b : MailBoxAddress) (B : MailBox) (pc : Pc) :
    (getting M b B pc).threads main = pc := by
  show Function.update M.threads main pc main = pc
  exact Function.update_self ..

/-- Only `main` moves. -/
theorem getting_others (b : MailBoxAddress) (B : MailBox) (pc : Pc) {t : ThreadId}
    (ht : t ≠ main) : (getting M b B pc).threads t = M.threads t := by
  show Function.update M.threads main pc t = _
  exact Function.update_of_ne ht ..

theorem moveTo_threads (pc : Pc) : (M.moveTo main pc).threads main = pc := by
  show Function.update M.threads main pc main = pc
  exact Function.update_self ..

theorem moveTo_others (pc : Pc) {t : ThreadId} (ht : t ≠ main) :
    (M.moveTo main pc).threads t = M.threads t := by
  show Function.update M.threads main pc t = _
  exact Function.update_of_ne ht ..

/-- `main` goes on with the call that it is in. -/
theorem Goes.main (h : Goes m M M') (hrun : M'.running = true) {pc : Pc}
    (hmain : M'.threads main = pc) (hpc : pc ≠ .outside) {M₁ : Machine}
    (hstep : M'.Step m nBoxes M₁) (heq : M₁ = M'') (hfailed : M''.failed = M'.failed) (hrunning : M''.running = M'.running)
    (hothers : ∀ t, t ≠ main → M''.threads t = M'.threads t) : Goes m M M'' := by
  subst heq
  refine h.step hrun hstep hfailed hrunning fun t ht => ?_
  have hne : t ≠ MailTest.main := fun h => hpc (hmain.symm.trans (h ▸ ht))
  rw [hothers t hne]
  exact ht

theorem getting_setBox (b : MailBoxAddress) (B B' : MailBox) (pc pc' : Pc) :
    ((getting M b B pc).moveTo main pc').setBox b B' = getting M b B' pc' := by
  unfold getting Machine.setBox Machine.moveTo
  dsimp only
  rw [Function.update_idem, Function.update_idem]

theorem acquireGet_getting (b : MailBoxAddress) (pc : Pc) :
    (M.moveTo main pc).acquireGet main b =
      getting M b { M.boxes b with lock := some main } (.getTest b) := by
  unfold Machine.acquireGet getting Machine.setBox Machine.moveTo
  dsimp only
  rw [Function.update_idem]

theorem testGet_getting (b : MailBoxAddress) {B : MailBox} (pc : Pc) {post : Mail}
    {rest : List Mail} (hmessages : B.messages = post :: rest) :
    (getting M b B pc).testGet main b =
      getting M b { B with messages := rest, taken := B.taken ++ [post.letter] }
        (.getRelease b post) := by
  unfold Machine.testGet
  rw [getting_box, hmessages]
  dsimp only
  rw [getting_setBox]

theorem releaseGet_getting (b : MailBoxAddress) (B : MailBox) (pc : Pc) {post : Mail}
    (hlength : post.mailHdr.length.toNat ≤ maxMailSize) :
    (getting M b B pc).releaseGet main b post =
      { getting M b { B with lock := none } .outside with
        history := { M.history with
          returned := M.history.returned ++ [(b, post.letter)] } } := by
  unfold Machine.releaseGet
  dsimp only
  rw [if_pos hlength, getting_box]
  unfold getting Machine.setBox Machine.moveTo
  dsimp only
  rw [Function.update_idem, Function.update_idem]

/-- `main` takes the first letter out of a mail box. -/
theorem Rests.takes {b : MailBoxAddress} {l : Letter} {rest : List Letter}
    (h : Rests M sock mail last) (hbox : Machine.IsBox nBoxes b) (hmail : mail b = l :: rest)
    (hlength : l.mailHdr.length.toNat ≤ maxMailSize) :
    ∃ M', Goes m (M.get nBoxes main b) M' ∧
      Rests M' sock (Function.update mail b rest) (some l) := by
  obtain ⟨post, posts, hmessages, rfl, rfl⟩ :=
    List.map_eq_cons_iff.mp ((h.messages b).trans hmail)
  have hget : M.get nBoxes main b = M.moveTo main (.getAcquire b) := if_pos hbox
  rw [hget]
  have hstart := Goes.refl (m := m) (M := M.moveTo main (.getAcquire b))
  have hacquire := hstart.main h.running (moveTo_threads _) nofun
    (.acquireGet (moveTo_threads _) (h.lock b)) (acquireGet_getting b (.getAcquire b)) rfl rfl
    fun t ht => (getting_others _ _ _ ht).trans (moveTo_others _ ht).symm
  have htest := hacquire.main h.running (getting_threads ..) nofun
    (.testGet (getting_threads ..)) (testGet_getting b _ hmessages) rfl rfl
    fun t ht => (getting_others _ _ _ ht).trans (getting_others _ _ _ ht).symm
  have hrelease := htest.main h.running (getting_threads ..) nofun
    (.releaseGet (getting_threads ..)) (releaseGet_getting _ _ _ hlength) rfl rfl
    fun t ht => (getting_others b (M.boxes b) .outside ht).trans (getting_others _ _ _ ht).symm
  have hout : Rests { M.moveTo main .outside with
      history := { M.history with
        returned := M.history.returned ++ [(b, post.letter)] } } sock mail (some post.letter) :=
    { h with
      out := by
        show Function.update M.threads main .outside main = _
        exact Function.update_self ..
      last := by
        show (M.history.returned ++ [(b, post.letter)]).getLast?.map Prod.snd = _
        rw [List.getLast?_concat]
        rfl }
  exact ⟨_, hrelease, hout.setBox rfl (h.waiting b)⟩

/-- `main` has come to `pc` in `Send`. -/
def sending (M : Machine) (pc : Pc) (messageSent : Semaphore) (sendLock : Option ThreadId) :
    Machine :=
  { M.moveTo main pc with messageSent := messageSent, sendLock := sendLock }

theorem sending_threads (pc : Pc) (v : Semaphore) (lock : Option ThreadId) :
    (sending M pc v lock).threads main = pc := by
  show Function.update M.threads main pc main = pc
  exact Function.update_self ..

theorem sending_others (pc : Pc) (v : Semaphore) (lock : Option ThreadId) {t : ThreadId}
    (ht : t ≠ main) : (sending M pc v lock).threads t = M.threads t := by
  show Function.update M.threads main pc t = _
  exact Function.update_of_ne ht ..

theorem sending_moveTo (pc pc' : Pc) (v v' : Semaphore) (lock lock' : Option ThreadId) :
    sending (sending M pc v lock) pc' v' lock' = sending M pc' v' lock' := by
  unfold sending Machine.moveTo
  dsimp only
  rw [Function.update_idem]

/-- `main` gets the lock for sending. -/
theorem Rests.locks (h : Rests M sock mail last) (p : Parcel) (hdr : PacketHeader)
    (body : Block) :
    Goes m (M.moveTo main (.sendAcquire p hdr body))
      (sending M (.networkSend p hdr body) M.messageSent (some main)) := by
  have hacquire : (M.moveTo main (.sendAcquire p hdr body)).acquireSend main p hdr body =
      sending M (.networkSend p hdr body) M.messageSent (some main) := by
    unfold Machine.acquireSend sending Machine.moveTo
    dsimp only
    rw [Function.update_idem]
  have h₀ := Goes.refl (m := m) (M := M.moveTo main (.sendAcquire p hdr body))
  exact h₀.main h.running (moveTo_threads _) nofun
    (.acquireSend (moveTo_threads _) h.sendLock) hacquire rfl rfl
    fun t ht => (sending_others _ _ _ ht).trans (moveTo_others _ ht).symm

/-- The packet is sent, and the call returns. -/
theorem Rests.sends (h : Rests M sock mail last) (p : Parcel) (hdr : PacketHeader)
    (body : Block) :
    ∃ M', Goes m ((sending M (.networkSend p hdr body) M.messageSent
        (some main)).networkSend main p) M' ∧ Rests M' sock mail last := by
  -- the device at work, and then idle again
  let K : Machine :=
    { M with
      sendsDone := M.sendsDone + 1
      history := { M.history with sent := M.history.sent ++ [p] } }
  let K' : Machine := { K with sendBusy := false, sendsDone := M.sendsDone + 1 - 1 }
  have hstart : (sending M (.networkSend p hdr body) M.messageSent
      (some main)).networkSend main p = sending K .sendP ⟨0, []⟩ (some main) := by
    unfold Machine.networkSend sending Machine.moveTo
    dsimp only
    rw [Function.update_idem, h.messageSent]
  have hdone : (sending K .sendP ⟨0, []⟩ (some main)).sendDone =
      sending K' .sendP ⟨1, []⟩ (some main) := rfl
  have htaken : (sending K' .sendP ⟨1, []⟩ (some main)).pSent main =
      sending K' .sendRelease ⟨0, []⟩ (some main) :=
    sending_moveTo ..
  have hrelease : (sending K' .sendRelease ⟨0, []⟩ (some main)).releaseSend main =
      sending K' .outside ⟨0, []⟩ none :=
    sending_moveTo ..
  rw [hstart]
  have h₁ := Goes.refl (m := m) (M := sending K .sendP ⟨0, []⟩ (some main))
  have h₁ := h₁.main h.running (sending_threads ..) nofun
    (.sendDone (Nat.succ_pos _)) hdone rfl rfl fun _ _ => rfl
  have h₂ := h₁.main h.running (sending_threads ..) nofun
    (.pSent (sending_threads ..)) htaken rfl rfl
    fun t ht => (sending_others _ _ _ ht).trans (sending_others _ _ _ ht).symm
  have h₃ := h₂.main h.running (sending_threads ..) nofun
    (.releaseSend (sending_threads ..)) hrelease rfl rfl
    fun t ht => (sending_others _ _ _ ht).trans (sending_others _ _ _ ht).symm
  exact ⟨_, h₃,
    { h with
      sendBusy := rfl
      messageSent := rfl
      sendLock := rfl
      out := sending_threads ..
      last := h.last }⟩

end Machines

/-! ## Both machines -/

variable {far : NetworkAddress → NetworkAddress} {up : NetworkAddress → Bool} {s : Test}
  {m : NetworkAddress} {M : Machine}

/-- A machine in a reachable state goes on by itself. -/
theorem reachable_goes (hs : (mailTest far up).Reachable s) (h : Goes m (s.net m) M) :
    (mailTest far up).Reachable { s with net := Function.update s.net m M } := by
  induction h with
  | refl => rwa [Function.update_eq_self]
  | @tail M₁ M₂ hgoes hstep ih =>
    obtain ⟨hrun, hM, hno⟩ := hstep
    have hself : ({ s with net := Function.update s.net m M₁ } : Test).net m = M₁ :=
      Function.update_self ..
    have hnext := ih.step (.machine (m := m) (M := M₂) (by rwa [hself]) (by rwa [hself])
      (by rwa [hself]))
    rwa [Function.update_idem] at hnext

/-- `main` sends its parcel, which the network does not lose. -/
theorem reachable_sends {sock : List Letter} {mail : MailBoxAddress → List Letter}
    {last : Option Letter} {p : Parcel} {hdr : PacketHeader} {body : Block}
    (hs : (mailTest far up).Reachable s) (h : Rests M sock mail last)
    (hnet : s.net m = M.moveTo main (.sendAcquire p hdr body)) (hother : p.toAddress ≠ m)
    (hrun : (s.net p.toAddress).running = true) :
    ∃ M' packet, Packet.letter packet = p.letter m ∧ Rests M' sock mail last ∧
      (mailTest far up).Reachable { s with
        net := Function.update (Function.update s.net p.toAddress
          ((s.net p.toAddress).deposit packet)) m M' } := by
  let N : Machine := sending M (.networkSend p hdr body) M.messageSent (some main)
  have hlocks := h.locks (m := m) p hdr body
  rw [← hnet] at hlocks
  have hs₁ := reachable_goes hs hlocks
  let s₁ : Test := { s with net := Function.update s.net m N }
  have hN : s₁.net m = N := Function.update_self ..
  have hpc : (s₁.net m).threads main = .networkSend p hdr body := by
    rw [hN]
    exact sending_threads ..
  -- what the call of `Send` has put into the buffer
  have hok := (sound_of_reachable (net_reachable hs₁) m).threads main
  rw [hpc] at hok
  obtain ⟨hsealed, hhdr, hletter⟩ := hok
  have hlegal : (s₁.net m).sendBusy = false ∧ 0 < hdr.length.toNat ∧
      hdr.length.toNat ≤ maxPacketSize ∧ hdr.fromAddress = m := by
    rw [hN, hhdr]
    exact send_legal h.sendBusy hsealed
  have hto : hdr.toAddress = p.toAddress := by
    rw [hhdr]
    rfl
  have hfar : s₁.net p.toAddress = s.net p.toAddress := Function.update_of_ne hother ..
  have hup : (s₁.net hdr.toAddress).running = true := by
    rw [hto, hfar]
    exact hrun
  let packet : Packet :=
    Packet.ofBlock (behind (fun _ => 0) hdr hdr.length.toNat body)
  have hpacket : Packet.letter packet = p.letter m := by
    rw [← hletter] at hsealed
    exact (Packet.letter_ofBlock_behind hsealed _).trans hletter
  have hs₂ := hs₁.step (.networkSend (m := m) (by rw [hN]; exact h.running) hpc false fun _ => 0)
  have hnet₂ : networkSend s₁.net m main p hdr body false (fun _ => 0) =
      Function.update (Function.update s₁.net m (N.networkSend main p)) p.toAddress
        ((s.net p.toAddress).deposit packet) := by
    unfold networkSend
    dsimp only
    rw [if_pos hlegal, if_neg Bool.false_ne_true, if_pos hup, hN, hto,
      Function.update_of_ne hother, hfar]
  rw [hnet₂] at hs₂
  obtain ⟨M', hgoes, hrests⟩ := h.sends (m := m) p hdr body
  have hsent : Function.update (Function.update s₁.net m (N.networkSend main p)) p.toAddress
      ((s.net p.toAddress).deposit packet) m = N.networkSend main p := by
    rw [Function.update_of_ne hother.symm, Function.update_self]
  have hs₃ := reachable_goes (m := m) hs₂ (M := M') (by dsimp only; rw [hsent]; exact hgoes)
  refine ⟨M', packet, hpacket, hrests, ?_⟩
  have hnet₃ : Function.update (Function.update (Function.update s₁.net m
      (N.networkSend main p)) p.toAddress ((s.net p.toAddress).deposit packet)) m M' =
        Function.update (Function.update s.net p.toAddress
          ((s.net p.toAddress).deposit packet)) m M' := by
    show Function.update (Function.update (Function.update (Function.update s.net m N) m _) _ _)
      m M' = _
    rw [Function.update_idem, Function.update_comm hother.symm, Function.update_idem]
  rw [← hnet₃]
  exact hs₃

/-- A reply goes to mail box 1. -/
theorem reply_box : Machine.IsBox nBoxes 1 := by decide

/-- A machine at rest, as the other one meets it. -/
structure Status where
  stage : Stage
  socket : List Letter
  last : Option Letter

def Status.Of (x : Status) (s : Test) (m : NetworkAddress) : Prop :=
  s.stage m = x.stage ∧ Rests (s.net m) x.socket (fun _ => []) x.last

/-- A state that the machine `m` and the machine it is paired with can come to. -/
def Meet (far : NetworkAddress → NetworkAddress) (up : NetworkAddress → Bool)
    (m : NetworkAddress) (x y : Status) : Prop :=
  ∃ s, (mailTest far up).Reachable s ∧ x.Of s m ∧ y.Of s (far m)

namespace Meet

variable {x y : Status} {sock : List Letter} {last : Option Letter}

theorem swap (hfar : ∀ m, far (far m) = m) (h : Meet far up m x y) :
    Meet far up (far m) y x := by
  obtain ⟨s, hs, hx, hy⟩ := h
  exact ⟨s, hs, hy, (hfar m).symm ▸ hx⟩

theorem swapBack (hfar : ∀ m, far (far m) = m) (h : Meet far up (far m) x y) :
    Meet far up m y x := by
  have hswap := h.swap hfar
  rwa [hfar] at hswap

/-- The machine goes on by itself, and the other one stays as it is. -/
theorem of_goes (hfar : far m ≠ m) (hs : (mailTest far up).Reachable s) (hy : y.Of s (far m))
    (hgoes : Goes m (s.net m) M) (hrests : Rests M sock (fun _ => []) last) :
    Meet far up m ⟨s.stage m, sock, last⟩ y := by
  refine ⟨_, reachable_goes hs hgoes, ⟨rfl, ?_⟩, hy.1, ?_⟩
  · show Rests (Function.update s.net m M m) _ _ _
    rwa [Function.update_self]
  · show Rests (Function.update s.net m M (far m)) _ _ _
    rw [Function.update_of_ne hfar]
    exact hy.2

/-- What one machine calls leaves the other one as it is. -/
theorem of_call (hfar : far m ≠ m) (hy : y.Of s (far m)) (M : Machine) (stage : Stage) :
    y.Of (s.call m M stage) (far m) := by
  unfold Status.Of Test.call
  dsimp only
  rw [Function.update_of_ne hfar, Function.update_of_ne hfar]
  exact hy

/-- `main` is in `Send` of a parcel for the other machine. -/
theorem of_send (hfar : far m ≠ m) {p : Parcel} {hdr : PacketHeader} {body : Block}
    {stage : Stage} (hto : p.toAddress = far m) (hrests : Rests (s.net m) sock (fun _ => []) last)
    (hy : y.Of s (far m)) (hs : (mailTest far up).Reachable
      (s.call m ((s.net m).moveTo main (.sendAcquire p hdr body)) stage)) :
    Meet far up m ⟨stage, sock, last⟩ { y with socket := y.socket ++ [p.letter m] } := by
  let s₁ : Test := s.call m ((s.net m).moveTo main (.sendAcquire p hdr body)) stage
  have hy₁ : y.Of s₁ (far m) := of_call hfar hy ..
  rw [← hto] at hfar hy₁
  obtain ⟨M', packet, hpacket, hrests', hs'⟩ := reachable_sends hs hrests
    (Function.update_self ..) hfar hy₁.2.running
  refine ⟨_, hs', ⟨?_, ?_⟩, ?_⟩
  · exact Function.update_self ..
  · show Rests (Function.update (Function.update s₁.net p.toAddress _) m M' m) _ _ _
    rwa [Function.update_self]
  · rw [← hto]
    refine ⟨hy₁.1, ?_⟩
    show Rests (Function.update (Function.update s₁.net p.toAddress _) m M' p.toAddress) _ _ _
    rw [Function.update_of_ne hfar, Function.update_self, ← hpacket]
    exact hy₁.2.deposit packet

/-- `MailTest` sends its message. -/
theorem sends (hfar : far m ≠ m) (h : Meet far up m ⟨.start, sock, last⟩ y) :
    Meet far up m ⟨.sent, sock, last⟩
      { y with socket := y.socket ++ [(message far m).letter m] } := by
  obtain ⟨s, hs, ⟨hstage, hrests⟩, hy⟩ := h
  have hs₁ := hs.step (.send (m := m) hrests.running hstage hrests.out ⟨0, 0, 0⟩ fun _ => 0)
  rw [send_moveTo (by decide) (by decide)] at hs₁
  exact of_send hfar rfl hrests hy hs₁

/-- `MailTest` acknowledges the message that it has received. -/
theorem acknowledges (hfar : far m ≠ m)
    (h : Meet far up m ⟨.waiting, sock, some (inMessage far m)⟩ y) :
    Meet far up m ⟨.acked, sock, some (inMessage far m)⟩
      { y with socket := y.socket ++ [(reply far m).letter m] } := by
  obtain ⟨s, hs, ⟨hstage, hrests⟩, hy⟩ := h
  have hs₁ := hs.step (.acknowledge (m := m) hrests.running hstage hrests.out hrests.last
    ⟨0, 0, 0⟩ fun _ => 0)
  have hbox : Machine.IsBox nBoxes (inMessage far m).mailHdr.fromAddress := reply_box
  rw [send_moveTo hbox (by decide)] at hs₁
  exact of_send hfar rfl hrests hy hs₁

/-- `main` receives the letter that is in the socket. -/
theorem of_receive (hfar : far m ≠ m) {l : Letter} {stage : Stage}
    (hs : (mailTest far up).Reachable s) (hrests : Rests (s.net m) (l :: sock) (fun _ => []) last)
    (hy : y.Of s (far m)) (hsealed : l.Sealed) (hto : l.pktHdr.toAddress = m)
    (hbox : Machine.IsBox nBoxes l.mailHdr.toAddress)
    (hcall : ∀ s₁, (mailTest far up).Reachable s₁ → s₁.stage m = s.stage m →
      (s₁.net m).running = true → (s₁.net m).threads main = .outside →
      (mailTest far up).Reachable
        (s₁.call m ((s₁.net m).get nBoxes main l.mailHdr.toAddress) stage)) :
    Meet far up m ⟨stage, sock, some l⟩ y := by
  obtain ⟨M₁, hdelivers, hrests₁⟩ := hrests.delivers hsealed hto hbox
  let s₁ : Test := { s with net := Function.update s.net m M₁ }
  have hs₁ : (mailTest far up).Reachable s₁ := reachable_goes hs hdelivers
  have hM₁ : s₁.net m = M₁ := Function.update_self ..
  have hy₁ : y.Of s₁ (far m) := by
    refine ⟨hy.1, ?_⟩
    show Rests (Function.update s.net m M₁ (far m)) _ _ _
    rw [Function.update_of_ne hfar]
    exact hy.2
  rw [← hM₁] at hrests₁
  have hs₂ := hcall s₁ hs₁ rfl hrests₁.running hrests₁.out
  obtain ⟨M₂, htakes, hrests₂⟩ := hrests₁.takes (m := m) hbox (Function.update_self ..)
    hsealed.bounded
  rw [Function.update_idem, Function.update_eq_self] at hrests₂
  let s₂ : Test := s₁.call m ((s₁.net m).get nBoxes main l.mailHdr.toAddress) stage
  have hnet : s₂.net m = (s₁.net m).get nBoxes main l.mailHdr.toAddress := Function.update_self ..
  have hstage : s₂.stage m = stage := Function.update_self ..
  rw [← hnet] at htakes
  have hmeet := of_goes hfar hs₂ (of_call hfar hy₁ ..) htakes hrests₂
  rwa [hstage] at hmeet

/-- `MailTest` receives the message of the other machine. -/
theorem receives (hfar : far m ≠ m) (hback : far (far m) = m)
    (h : Meet far up m ⟨.sent, inMessage far m :: sock, last⟩ y) :
    Meet far up m ⟨.waiting, sock, some (inMessage far m)⟩ y := by
  obtain ⟨s, hs, ⟨hstage, hrests⟩, hy⟩ := h
  have hsealed : (inMessage far m).Sealed :=
    Parcel.letter_sealed (p := message far (far m)) (by decide : data.length ≤ maxMailSize) _
  refine of_receive hfar hs hrests hy hsealed hback (by decide : Machine.IsBox nBoxes 0)
    fun s₁ hs₁ hstage₁ hrun hout => ?_
  exact hs₁.step (.receive hrun (hstage₁.trans hstage) hout)

/-- `MailTest` receives the acknowledgement of the other machine. -/
theorem receivesAck (hfar : far m ≠ m) (hback : far (far m) = m)
    (h : Meet far up m ⟨.acked, inReply far m :: sock, last⟩ y) :
    Meet far up m ⟨.waitingAck, sock, some (inReply far m)⟩ y := by
  obtain ⟨s, hs, ⟨hstage, hrests⟩, hy⟩ := h
  have hsealed : (inReply far m).Sealed :=
    Parcel.letter_sealed (p := reply far (far m)) (by decide : ack.length ≤ maxMailSize) _
  refine of_receive hfar hs hrests hy hsealed hback (by decide : Machine.IsBox nBoxes 1)
    fun s₁ hs₁ hstage₁ hrun hout => ?_
  exact hs₁.step (.receiveAck hrun (hstage₁.trans hstage) hout)

/-- Two machines that have each other, and have just been started. -/
theorem start (hup : ∀ m, up m = true) :
    Meet far up m ⟨.start, [], none⟩ ⟨.start, [], none⟩ :=
  ⟨⟨fun _ => Machine.start, fun _ => .start⟩,
    .of_init ⟨fun _ => Machine.start_initial, fun m => (hup m).symm, fun _ => rfl⟩,
    ⟨rfl, .start⟩, rfl, .start⟩

/-- Both machines get the message and the acknowledgement of the other one. -/
theorem exchange (hfar : ∀ m, far (far m) = m) (hother : far m ≠ m) (hup : ∀ m, up m = true) :
    Meet far up m ⟨.waitingAck, [], some (inReply far m)⟩
      ⟨.waitingAck, [], some (inReply far (far m))⟩ := by
  have hother' : far (far m) ≠ far m := by
    rw [hfar]
    exact hother.symm
  have hmessage : (message far m).letter m = inMessage far (far m) := by rw [inMessage, hfar]
  have hreply : (reply far m).letter m = inReply far (far m) := by rw [inReply, hfar]
  -- the messages
  have h := (@start far up m hup).sends hother
  rw [hmessage] at h
  have h := (h.swap hfar).sends hother'
  have h := h.receives hother' (hfar (far m))
  have h := (h.swapBack hfar).receives hother (hfar m)
  -- the acknowledgements
  have h := h.acknowledges hother
  rw [hreply] at h
  have h := (h.swap hfar).acknowledges hother'
  have h := h.receivesAck hother' (hfar (far m))
  exact (h.swapBack hfar).receivesAck hother (hfar m)

/-- Both machines power down. -/
theorem powersDown (hother : far m ≠ m) {last' : Option Letter}
    (h : Meet far up m ⟨.waitingAck, sock, last⟩ ⟨.waitingAck, [], last'⟩) :
    ∃ s, (mailTest far up).Reachable s ∧ s.stage m = .done ∧ s.stage (far m) = .done := by
  obtain ⟨s, hs, ⟨hstage, hrests⟩, hy⟩ := h
  have hs₁ := hs.step (.powerdown (m := m) hrests.running hstage hrests.out)
  obtain ⟨hstage', hrests'⟩ := of_call hother hy { s.net m with running := false } .done
  have hs₂ := hs₁.step (.powerdown (m := far m) hrests'.running hstage' hrests'.out)
  refine ⟨_, hs₂, ?_, Function.update_self ..⟩
  show Function.update (Function.update s.stage m .done) (far m) .done m = _
  rw [Function.update_of_ne hother.symm, Function.update_self]

end Meet

end MailTest

end Network
end Nachos
