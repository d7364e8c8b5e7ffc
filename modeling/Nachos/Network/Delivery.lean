import Nachos.Lib.LossyChannel
import Nachos.Network.Transit

/-!
# The post office as a channel that loses mail

Between a machine that sends and a mail box of another, the post offices and the
network are a lossy channel.
-/

namespace Nachos
namespace Network

open Lib Threads
open FileSys (Block)

/-! ## All machines -/

variable {s s' : State} {m : NetworkAddress} {t : ThreadId} {p : Parcel}

theorem sound_update (h : ∀ m, Sound m (s m)) {M : Machine} (hM : Sound m M) (n : NetworkAddress) :
    Sound n (Function.update s m M n) := by
  by_cases hn : n = m
  · subst hn
    rw [Function.update_self]
    exact hM
  · rw [Function.update_of_ne hn]
    exact h n

theorem Machine.transit_deposit (M : Machine) (packet : Packet) :
    (M.deposit packet).transit = M.transit ++ [packet.letter] := by
  show M.worker.carried M.buffer ++ M.buffered ++ (M.socket ++ [packet]).map Packet.letter = _
  rw [List.map_append, ← List.append_assoc]
  rfl

theorem Sound.deposit {M : Machine} (h : Sound m M) {packet : Packet}
    (hsealed : packet.letter.Sealed) (hto : packet.letter.pktHdr.toAddress = m) :
    Sound m (M.deposit packet) :=
  { h with
    transit := by
      intro l hl
      rw [Machine.transit_deposit] at hl
      rcases List.mem_append.mp hl with hold | hnew
      · exact h.transit l hold
      · obtain rfl := List.mem_singleton.mp hnew
        exact ⟨hsealed, hto⟩ }

theorem Sound.networkSend {M : Machine} (h : Sound m M) (t : ThreadId)
    (hp : (p.letter m).Sealed) : Sound m (M.networkSend t p) :=
  { (Quiet.moveTo M t .sendP trivial).sound h with
    sent := by
      intro q hq
      rcases List.mem_append.mp hq with hold | hnew
      · exact h.sent q hold
      · obtain rfl := List.mem_singleton.mp hnew
        exact hp }

/-- `Network::Send` fails its `ASSERT`, or records the parcel and leaves the packet away, or
puts the letter of the parcel at the end of the line for its machine. -/
theorem networkSend_cases (h : ∀ m, Sound m (s m)) {hdr : PacketHeader} {data : Block}
    (hpc : (s m).threads t = .networkSend p hdr data) (lost : Bool) (junk : Block) :
    (p.letter m).Sealed ∧
      (networkSend s m t p hdr data lost junk =
        Function.update s m ((s m).fail .networkSend) ∨
      (∃ M, Quiet m ((s m).networkSend t p) M ∧
        networkSend s m t p hdr data lost junk = Function.update s m M) ∨
      ∃ packet : Packet, packet.letter = p.letter m ∧
        networkSend s m t p hdr data lost junk =
          Function.update (Function.update s m ((s m).networkSend t p)) p.toAddress
            ((Function.update s m ((s m).networkSend t p) p.toAddress).deposit packet)) := by
  have hok := (h m).threads t
  rw [hpc] at hok
  obtain ⟨hsealed, rfl, hletter⟩ := hok
  refine ⟨hsealed, ?_⟩
  unfold Network.networkSend
  dsimp only
  split
  · split
    · exact .inr (.inl ⟨_, Quiet.refl m _, rfl⟩)
    split
    · refine .inr (.inr ⟨_, ?_, rfl⟩)
      rw [← hletter]
      rw [← hletter] at hsealed
      exact Packet.letter_ofBlock_behind hsealed junk
    · exact .inr (.inl ⟨_, Quiet.fail _, rfl⟩)
  · exact .inl rfl

theorem sound_step {numBoxes : NetworkAddress → MailBoxAddress} (h : ∀ m, Sound m (s m))
    (hstep : Step numBoxes s s') : ∀ m, Sound m (s' m) := by
  cases hstep with
  | @machine m M hrun hM => exact sound_update h ((h m).step hM).1
  | @networkSend m t p hdr data hrun hpc lost junk =>
    obtain ⟨hsealed, heq | ⟨M, hquiet, heq⟩ | ⟨packet, hletter, heq⟩⟩ :=
      networkSend_cases h hpc lost junk
    · rw [heq]
      exact sound_update h ((Quiet.fail _).sound (h m))
    · rw [heq]
      exact sound_update h (hquiet.sound ((h m).networkSend t hsealed))
    · rw [heq]
      have hsend : ∀ n, Sound n (Function.update s m ((s m).networkSend t p) n) :=
        sound_update h ((h m).networkSend t hsealed)
      refine sound_update hsend ((hsend p.toAddress).deposit ?_ ?_)
      · rw [hletter]
        exact hsealed
      · rw [hletter]
        rfl

theorem sound_of_reachable {numBoxes : NetworkAddress → MailBoxAddress}
    (hs : (system numBoxes).Reachable s) : ∀ m, Sound m (s m) :=
  hs.induct (fun _ hinit m => (hinit m).sound) fun _ _ => sound_step

/-! ## The channel to a mail box -/

/-- The line of letters from machine `f` to mail box `b` of machine `m`. -/
def channel (f m : NetworkAddress) (b : MailBoxAddress) (s : State) : LossyChannel Letter where
  sent := ((s f).history.sent.filter
    (fun p => p.toAddress = m ∧ p.mailHdr.toAddress = b)).map (Parcel.letter f)
  carried := ((s m).carried b).filter (·.pktHdr.fromAddress = f)
  received := ((s m).taken b).filter (·.pktHdr.fromAddress = f)

variable {f n : NetworkAddress} {b : MailBoxAddress}

/-- Machine `m` sends the parcel `p` on the channel from `f` to box `b` of `n`. -/
def OnChannel (f n : NetworkAddress) (b : MailBoxAddress) (m : NetworkAddress) (p : Parcel) :
    Prop := f = m ∧ p.toAddress = n ∧ p.mailHdr.toAddress = b

instance : Decidable (OnChannel f n b m p) := inferInstanceAs (Decidable (_ ∧ _))

theorem channel_sent (hsent : ∀ f, (s' f).history.sent =
      if f = m then (s f).history.sent ++ [p] else (s f).history.sent) :
    (channel f n b s').sent =
      (channel f n b s).sent ++ if OnChannel f n b m p then [p.letter m] else [] := by
  show ((s' f).history.sent.filter _).map _ = ((s f).history.sent.filter _).map _ ++ _
  rw [hsent f]
  by_cases hc : OnChannel f n b m p
  · obtain ⟨rfl, hp⟩ := hc
    rw [if_pos rfl, if_pos ⟨rfl, hp⟩, List.filter_append, List.map_append, List.filter_cons,
      if_pos (decide_eq_true hp)]
    rfl
  · rw [if_neg hc, List.append_nil]
    by_cases hf : f = m
    · have hp : ¬ decide (p.toAddress = n ∧ p.mailHdr.toAddress = b) = true := by
        rw [decide_eq_true_eq]
        exact fun h => hc ⟨hf, h⟩
      rw [if_pos hf, List.filter_append, List.map_append, List.filter_cons, if_neg hp]
      exact List.append_nil _
    · rw [if_neg hf]

theorem Machine.carried_deposit (M : Machine) (packet : Packet) :
    (M.deposit packet).carried b = M.carried b ++
      if packet.letter.mailHdr.toAddress = b then [packet.letter] else [] := by
  rw [Machine.carried, Machine.carried, transit_deposit, List.filter_append,
    ← List.append_assoc]
  congr 1
  by_cases hb : packet.letter.mailHdr.toAddress = b
  · rw [if_pos hb, List.filter_cons, if_pos (decide_eq_true hb)]
    rfl
  · have hnot : ¬ decide (packet.letter.mailHdr.toAddress = b) = true := by
      rwa [decide_eq_true_eq]
    rw [if_neg hb, List.filter_cons, if_neg hnot]
    rfl

/-- At the far end a packet lengthens the line of its channel. -/
theorem channel_carried_deposit {packet : Packet} (hletter : packet.letter = p.letter m) :
    (channel f n b (Function.update s p.toAddress ((s p.toAddress).deposit packet))).carried =
      (channel f n b s).carried ++ if OnChannel f n b m p then [p.letter m] else [] := by
  show ((Function.update s p.toAddress _ n).carried b).filter _ = ((s n).carried b).filter _ ++ _
  by_cases hn : p.toAddress = n
  · subst hn
    rw [Function.update_self, Machine.carried_deposit, hletter, List.filter_append]
    congr 1
    by_cases hc : OnChannel f p.toAddress b m p
    · have hb : (p.letter m).mailHdr.toAddress = b := hc.2.2
      have hfrom : decide ((p.letter m).pktHdr.fromAddress = f) = true :=
        decide_eq_true hc.1.symm
      rw [if_pos hb, if_pos hc, List.filter_cons, if_pos hfrom]
      rfl
    · rw [if_neg hc]
      by_cases hb : (p.letter m).mailHdr.toAddress = b
      · have hfrom : ¬ decide ((p.letter m).pktHdr.fromAddress = f) = true := by
          rw [decide_eq_true_eq]
          exact fun h => hc ⟨h.symm, rfl, hb⟩
        rw [if_pos hb, List.filter_cons, if_neg hfrom]
        rfl
      · rw [if_neg hb]
        rfl
  · have hc : ¬ OnChannel f n b m p := fun h => hn h.2.1
    rw [Function.update_of_ne (Ne.symm hn), if_neg hc, List.append_nil]

/-- The near end of a channel, and what was taken from it, do not see the packet. -/
theorem channel_deposit (d : NetworkAddress) (packet : Packet) :
    (channel f n b (Function.update s d ((s d).deposit packet))).sent = (channel f n b s).sent ∧
      (channel f n b (Function.update s d ((s d).deposit packet))).received =
        (channel f n b s).received := by
  refine ⟨?_, ?_⟩
  · show ((Function.update s d _ f).history.sent.filter _).map _ =
      ((s f).history.sent.filter _).map _
    by_cases hf : f = d
    · subst hf
      rw [Function.update_self]
      rfl
    · rw [Function.update_of_ne hf]
  · show ((Function.update s d _ n).taken b).filter _ = ((s n).taken b).filter _
    by_cases hn : n = d
    · subst hn
      rw [Function.update_self]
      rfl
    · rw [Function.update_of_ne hn]

/-- A step of one machine takes at most one letter off the channel. -/
theorem channel_machine {M : Machine} (h : Moves (s m) M) :
    channel f n b (Function.update s m M) = channel f n b s ∨
      LossyChannel.Step (channel f n b s) (channel f n b (Function.update s m M)) := by
  have hsent : (channel f n b (Function.update s m M)).sent = (channel f n b s).sent := by
    show ((Function.update s m M f).history.sent.filter _).map _ =
      ((s f).history.sent.filter _).map _
    by_cases hf : f = m
    · subst hf
      rw [Function.update_self, h.sent]
    · rw [Function.update_of_ne hf]
  by_cases hn : n = m
  · subst hn
    have hcarried : (channel f n b (Function.update s n M)).carried =
        (M.carried b).filter (·.pktHdr.fromAddress = f) := by
      show ((Function.update s n M n).carried b).filter _ = _
      rw [Function.update_self]
    have hreceived : (channel f n b (Function.update s n M)).received =
        (M.taken b).filter (·.pktHdr.fromAddress = f) := by
      show ((Function.update s n M n).taken b).filter _ = _
      rw [Function.update_self]
    rcases h.boxes b with ⟨hsame, htaken⟩ | ⟨l, hfirst, htaken⟩
    · refine .inl (LossyChannel.ext hsent ?_ ?_)
      · rw [hcarried, hsame]
        rfl
      · rw [hreceived, htaken]
        rfl
    · have hline : (channel f n b s).carried =
          (l :: M.carried b).filter (·.pktHdr.fromAddress = f) := by
        rw [← hfirst]
        rfl
      have hgot : (channel f n b (Function.update s n M)).received =
          (channel f n b s).received ++ [l].filter (·.pktHdr.fromAddress = f) := by
        rw [hreceived, htaken, List.filter_append]
        rfl
      rw [List.filter_cons] at hline hgot
      by_cases hl : l.pktHdr.fromAddress = f
      · rw [if_pos (decide_eq_true hl)] at hline hgot
        have heq : channel f n b (Function.update s n M) =
            { channel f n b s with
              carried := (M.carried b).filter (·.pktHdr.fromAddress = f)
              received := (channel f n b s).received ++ [l] } :=
          LossyChannel.ext hsent hcarried hgot
        rw [heq]
        exact .inr (.receive hline)
      · have hnot : ¬ decide (l.pktHdr.fromAddress = f) = true := by rwa [decide_eq_true_eq]
        rw [if_neg hnot] at hline hgot
        exact .inl (LossyChannel.ext hsent (hcarried.trans hline.symm)
          (hgot.trans (List.append_nil _)))
  · refine .inl (LossyChannel.ext hsent ?_ ?_)
    · show ((Function.update s m M n).carried b).filter _ = _
      rw [Function.update_of_ne hn]
      rfl
    · show ((Function.update s m M n).taken b).filter _ = _
      rw [Function.update_of_ne hn]
      rfl

/-- What the sender records of a parcel is sent on its channel. -/
theorem channel_parcel {M : Machine} (hquiet : Quiet m ((s m).networkSend t p) M) :
    (channel f n b (Function.update s m M)).sent =
        (channel f n b s).sent ++ (if OnChannel f n b m p then [p.letter m] else []) ∧
      (channel f n b (Function.update s m M)).carried = (channel f n b s).carried ∧
      (channel f n b (Function.update s m M)).received = (channel f n b s).received := by
  refine ⟨channel_sent fun g => ?_, ?_, ?_⟩
  · by_cases hg : g = m
    · subst hg
      rw [Function.update_self, if_pos rfl, hquiet.sent]
      rfl
    · rw [Function.update_of_ne hg, if_neg hg]
  · show ((Function.update s m M n).carried b).filter _ = ((s n).carried b).filter _
    by_cases hn : n = m
    · subst hn
      have hcarried : M.carried b = (s n).carried b := by
        rw [Machine.carried, hquiet.messages, hquiet.transit]
        rfl
      rw [Function.update_self, hcarried]
    · rw [Function.update_of_ne hn]
  · show ((Function.update s m M n).taken b).filter _ = ((s n).taken b).filter _
    by_cases hn : n = m
    · subst hn
      rw [Function.update_self, hquiet.taken]
      rfl
    · rw [Function.update_of_ne hn]

/-- The network with its post offices is a lossy channel between any machine and any mail
box. -/
theorem views_channel (numBoxes : NetworkAddress → MailBoxAddress) (f n : NetworkAddress)
    (b : MailBoxAddress) :
    LossyChannel.Views (system numBoxes) (fun s => ∀ m, Sound m (s m)) (channel f n b) where
  init s hinit := by
    refine LossyChannel.ext ?_ ?_ ?_
    · show ((s f).history.sent.filter _).map _ = _
      rw [(hinit f).history]
      rfl
    · show ((s n).carried b).filter _ = _
      have hn := hinit n
      rw [Machine.carried, Machine.messages, Machine.transit, Machine.buffered, hn.boxes,
        hn.worker, hn.socket, hn.length]
      rfl
    · show ((s n).taken b).filter _ = _
      rw [Machine.taken, (hinit n).boxes]
      rfl
  step s s' h hstep := by
    cases hstep with
    | @machine m M hrun hM => exact channel_machine ((h m).step hM).2
    | @networkSend m t p hdr data hrun hpc lost junk =>
      obtain ⟨-, heq | ⟨M, hquiet, heq⟩ | ⟨packet, hletter, heq⟩⟩ :=
        networkSend_cases h hpc lost junk
      · rw [heq]
        exact channel_machine (Quiet.fail (m := m) _).moves
      · rw [heq]
        obtain ⟨hsent, hcarried, hreceived⟩ := channel_parcel (f := f) (n := n) (b := b) hquiet
        by_cases hc : OnChannel f n b m p
        · rw [if_pos hc] at hsent
          have hlost : channel f n b (Function.update s m M) =
              { channel f n b s with sent := (channel f n b s).sent ++ [p.letter m] } :=
            LossyChannel.ext hsent hcarried hreceived
          rw [hlost]
          exact .inr (.lose _)
        · rw [if_neg hc, List.append_nil] at hsent
          exact .inl (LossyChannel.ext hsent hcarried hreceived)
      · rw [heq]
        obtain ⟨hsent, hcarried, hreceived⟩ := channel_parcel (f := f) (n := n) (b := b)
          (Quiet.refl m ((s m).networkSend t p))
        obtain ⟨hsent', hreceived'⟩ := channel_deposit (f := f) (n := n) (b := b)
          (s := Function.update s m ((s m).networkSend t p)) p.toAddress packet
        have hcarried' := channel_carried_deposit (f := f) (n := n) (b := b) hletter
          (s := Function.update s m ((s m).networkSend t p))
        rw [hsent] at hsent'
        rw [hcarried] at hcarried'
        rw [hreceived] at hreceived'
        by_cases hc : OnChannel f n b m p
        · rw [if_pos hc] at hsent' hcarried'
          have htransmit : channel f n b _ =
              { channel f n b s with
                sent := (channel f n b s).sent ++ [p.letter m]
                carried := (channel f n b s).carried ++ [p.letter m] } :=
            LossyChannel.ext hsent' hcarried' hreceived'
          rw [htransmit]
          exact .inr (.transmit _)
        · rw [if_neg hc, List.append_nil] at hsent' hcarried'
          exact .inl (LossyChannel.ext hsent' hcarried' hreceived')

/-! ## Delivery -/

variable {numBoxes : NetworkAddress → MailBoxAddress}

/-- In every interleaving of the machines, of their threads and of the interrupts: what is
taken from a mail box are, sender by sender, letters sent to it in the order of sending, each
with the headers and the data of its parcel; a call of `Receive` hands out what was taken; no
packet in the inbox is lost; and the semaphore and the worker count the packet in the inbox. -/
theorem postOffice_delivers (hs : (system numBoxes).Reachable s) :
    (∀ f m b, (((s m).boxes b).taken.filter (·.pktHdr.fromAddress = f)).Sublist
      (((s f).history.sent.filter
        (fun p => p.toAddress = m ∧ p.mailHdr.toAddress = b)).map (Parcel.letter f))) ∧
    (∀ m b, ∀ l ∈ ((s m).boxes b).taken,
      (∃ p ∈ (s l.pktHdr.fromAddress).history.sent, p.toAddress = m ∧
        l.mailHdr = p.mailHdr ∧ l.data = p.data) ∧
      l.pktHdr.toAddress = m ∧ l.mailHdr.toAddress = b ∧
      l.pktHdr.length.toNat = l.mailHdr.length.toNat + sizeofHeader) ∧
    (∀ m b l, (b, l) ∈ (s m).history.returned → l ∈ ((s m).boxes b).taken) ∧
    (∀ m, (s m).history.read = (s m).history.received ++ (s m).inboxPacket) ∧
    (∀ m, (s m).messageAvailable.value + (s m).worker.beforeReceive =
      if (s m).inHdr.length ≠ 0 then 1 else 0) := by
  have hsound := sound_of_reachable hs
  have hline : ∀ f m b, (((s m).boxes b).taken.filter (·.pktHdr.fromAddress = f)).Sublist
      (((s f).history.sent.filter
        (fun p => p.toAddress = m ∧ p.mailHdr.toAddress = b)).map (Parcel.letter f)) :=
    fun f m b => (LossyChannel.inOrder_of_reachable
      ((views_channel numBoxes f m b).reachable (fun _ => sound_of_reachable) hs)).received_sublist
  refine ⟨hline, ?_, fun m => (hsound m).returned, fun m => (hsound m).read,
    fun m => (hsound m).available⟩
  intro m b l hl
  have hmem : l ∈ ((s m).boxes b).taken.filter
      (fun k => decide (k.pktHdr.fromAddress = l.pktHdr.fromAddress)) :=
    List.mem_filter.mpr ⟨hl, decide_eq_true rfl⟩
  obtain ⟨p, hp, hletter⟩ := List.mem_map.mp ((hline _ m b).subset hmem)
  obtain ⟨hsent, hto⟩ := List.mem_filter.mp hp
  obtain ⟨hm, hb⟩ := of_decide_eq_true hto
  have hsealed : l.Sealed := by
    rw [← hletter]
    exact (hsound _).sent p hsent
  refine ⟨⟨p, hsent, hm, ?_, ?_⟩, ?_, ?_, hsealed.length⟩
  · rw [← hletter]
    rfl
  · rw [← hletter]
    rfl
  · rw [← hletter]
    exact hm
  · rw [← hletter]
    exact hb

/-- A machine after the constructors, over memory of zeros. -/
def Machine.start : Machine where
  running := true
  failed := []
  socket := []
  sendBusy := false
  sendsDone := 0
  inHdr := { toAddress := 0, fromAddress := 0, length := 0 }
  inbox := fun _ => 0
  messageAvailable := { value := 0, queue := [] }
  messageSent := { value := 0, queue := [] }
  sendLock := none
  boxes := fun _ => { messages := [], lock := none, waiting := [], taken := [] }
  worker := .p
  buffer := fun _ => 0
  threads := fun _ => .outside
  history := { sent := [], read := [], received := [], returned := [] }

theorem Machine.start_initial : Machine.start.Initial :=
  ⟨rfl, rfl, rfl, rfl, rfl, rfl, rfl, rfl, fun _ => rfl, rfl, fun _ => rfl, rfl⟩

/-- Machine 0 sends two bytes to the first mail box of machine 1, and a thread takes them. -/
theorem postOffice_delivers_two_bytes :
    ∃ s, (system (fun _ => 10)).Reachable s ∧ (s 1).history.returned.length = 1 ∧
      ∀ l ∈ ((s 1).boxes 0).taken, l.pktHdr.toAddress = 1 := by
  have hs := System.Reachable.of_init (S := system (fun _ => 10)) (s := fun _ => Machine.start)
    (fun _ => Machine.start_initial)
  have hs := hs.step (.machine (m := 0) rfl
    (.send (t := 1) rfl (by decide) { toAddress := 1, fromAddress := 0, length := 0 }
      { toAddress := 0, fromAddress := 1, length := 2 } (fun _ => 0) (fun _ => 0)))
  have hs := hs.step (.machine (m := 0) rfl (.acquireSend (t := 1) rfl rfl))
  have hs := hs.step (.networkSend (m := 0) (t := 1) rfl rfl false fun _ => 0)
  have hs := hs.step (.machine (m := 1) rfl .poll)
  have hs := hs.step (.machine (m := 1) rfl (.pAvailable rfl))
  have hs := hs.step (.machine (m := 1) rfl (.receive rfl))
  have hs := hs.step (.machine (m := 1) rfl (.deliver rfl fun _ => 0))
  have hs := hs.step (.machine (m := 1) rfl (.acquirePut rfl rfl))
  have hs := hs.step (.machine (m := 1) rfl (.append rfl))
  have hs := hs.step (.machine (m := 1) rfl (.signalNone rfl rfl))
  have hs := hs.step (.machine (m := 1) rfl (.releasePut rfl))
  have hs := hs.step (.machine (m := 1) rfl (.get (t := 1) rfl (by decide) 0))
  have hs := hs.step (.machine (m := 1) rfl (.acquireGet (t := 1) rfl rfl))
  have hs := hs.step (.machine (m := 1) rfl (.testGet (t := 1) rfl))
  have hs := hs.step (.machine (m := 1) rfl (.releaseGet (t := 1) rfl))
  exact ⟨_, hs, rfl, fun l hl => ((postOffice_delivers hs).2.1 1 0 l hl).2.1⟩

end Network
end Nachos
