import Nachos.Network.MailExchange

/-!
# The protocol of the mail test

What each machine has sent and received at each point of `MailTest`, whatever the network
loses: no assertion fails, and a machine that powers down has had its exchange.
-/

namespace Nachos
namespace Network

open Lib Threads
open FileSys (Block)

namespace MailTest

variable {far : NetworkAddress → NetworkAddress} {up : NetworkAddress → Bool}

/-! ## The protocol -/

/-- After a call of `Send`. -/
def Sends (M : Machine) (before : List Parcel) (p : Parcel) : Prop :=
  doing (M.threads main) = .sending p ∧ M.history.sent = before ∨
    (doing (M.threads main) = .sent ∨ doing (M.threads main) = .nothing) ∧
      M.history.sent = before ++ [p]

/-- After a call of `Receive`. -/
def Gets (M : Machine) (before : List (MailBoxAddress × Letter)) (b : MailBoxAddress)
    (l : Letter) : Prop :=
  doing (M.threads main) = .getting b ∧ M.history.returned = before ∨
    doing (M.threads main) = .nothing ∧ M.history.returned = before ++ [(b, l)]

/-- What machine `m` has sent and received. -/
inductive Progress (far : NetworkAddress → NetworkAddress) (m : NetworkAddress) (M : Machine) :
    Stage → Prop
  | start (hdoing : doing (M.threads main) = .nothing) (hsent : M.history.sent = [])
      (hreturned : M.history.returned = []) : Progress far m M .start
  | sent (hsends : Sends M [] (message far m)) (hreturned : M.history.returned = []) :
      Progress far m M .sent
  | waiting (hsent : M.history.sent = [message far m]) (hgets : Gets M [] 0 (inMessage far m)) :
      Progress far m M .waiting
  | acked (hsends : Sends M [message far m] (reply far m))
      (hreturned : M.history.returned = [(0, inMessage far m)]) : Progress far m M .acked
  | waitingAck (hsent : M.history.sent = [message far m, reply far m])
      (hgets : Gets M [(0, inMessage far m)] 1 (inReply far m)) : Progress far m M .waitingAck
  | done (hsent : M.history.sent = [message far m, reply far m])
      (hreturned : M.history.returned = [(0, inMessage far m), (1, inReply far m)]) :
      Progress far m M .done

structure Invariant (far : NetworkAddress → NetworkAddress) (up : NetworkAddress → Bool)
    (s : Test) : Prop where
  calm : ∀ m, Calm (s.net m)
  running : ∀ m, (s.net m).running = true ↔ up m = true ∧ s.stage m ≠ .done
  progress : ∀ m, Progress far m (s.net m) (s.stage m)

theorem message_fits : (outMailHdr 0 data).length.toNat ≤ maxMailSize := by decide

theorem reply_fits : (outMailHdr 1 ack).length.toNat ≤ maxMailSize := by decide

theorem message_ne_reply (m : NetworkAddress) : message far m ≠ reply far m := by
  intro h
  have hbox : (0 : MailBoxAddress) = 1 := congrArg (fun p : Parcel => p.mailHdr.toAddress) h
  exact absurd hbox (by decide)

namespace Progress

variable {m : NetworkAddress} {M M' : Machine} {stage : Stage}

theorem sent_cases (h : Progress far m M stage) :
    M.history.sent = [] ∨ M.history.sent = [message far m] ∨
      M.history.sent = [message far m, reply far m] := by
  cases h with
  | start _ hsent _ => exact .inl hsent
  | sent hsends _ => exact hsends.imp And.right fun h => .inl h.2
  | waiting hsent _ => exact .inr (.inl hsent)
  | acked hsends _ => exact .inr (hsends.imp And.right And.right)
  | waitingAck hsent _ => exact .inr (.inr hsent)
  | done hsent _ => exact .inr (.inr hsent)

theorem mem_sent (h : Progress far m M stage) {p : Parcel} (hp : p ∈ M.history.sent) :
    p = message far m ∨ p = reply far m := by
  rcases h.sent_cases with hsent | hsent | hsent
  · rw [hsent] at hp
    cases hp
  · rw [hsent, List.mem_singleton] at hp
    exact .inl hp
  · rw [hsent] at hp
    exact (List.mem_cons.mp hp).imp id List.mem_singleton.mp

/-- A machine replies to the message that it has received. -/
theorem returned_of_reply (h : Progress far m M stage) (hp : reply far m ∈ M.history.sent) :
    (0, inMessage far m) ∈ M.history.returned := by
  have hne : ∀ {l}, M.history.sent = l → (∀ p ∈ l, p = message far m) → False := fun hl hall =>
    message_ne_reply m (hall _ (hl ▸ hp)).symm
  cases h with
  | start _ hsent _ => exact (hne hsent nofun).elim
  | sent hsends _ =>
    rcases hsends with ⟨-, hsent⟩ | ⟨-, hsent⟩
    · exact (hne hsent nofun).elim
    · exact (hne hsent fun p hp => List.mem_singleton.mp hp).elim
  | waiting hsent _ => exact (hne hsent fun p hp => List.mem_singleton.mp hp).elim
  | acked _ hreturned => exact hreturned ▸ List.mem_cons_self
  | waitingAck _ hgets =>
    rcases hgets with ⟨-, hreturned⟩ | ⟨-, hreturned⟩
    · exact hreturned ▸ List.mem_cons_self
    · exact hreturned ▸ List.mem_cons_self
  | done _ hreturned => exact hreturned ▸ List.mem_cons_self

theorem congr (h : Progress far m M stage)
    (hdoing : doing (M'.threads main) = doing (M.threads main))
    (hsent : M'.history.sent = M.history.sent)
    (hreturned : M'.history.returned = M.history.returned) : Progress far m M' stage := by
  cases h with
  | start hd hs hr => exact .start (hdoing.trans hd) (hsent.trans hs) (hreturned.trans hr)
  | sent hs hr =>
    refine .sent ?_ (hreturned.trans hr)
    unfold Sends
    rwa [hdoing, hsent]
  | waiting hs hg =>
    refine .waiting (hsent.trans hs) ?_
    unfold Gets
    rwa [hdoing, hreturned]
  | acked hs hr =>
    refine .acked ?_ (hreturned.trans hr)
    unfold Sends
    rwa [hdoing, hsent]
  | waitingAck hs hg =>
    refine .waitingAck (hsent.trans hs) ?_
    unfold Gets
    rwa [hdoing, hreturned]
  | done hs hr => exact .done (hsent.trans hs) (hreturned.trans hr)

/-- The machine goes on with the call that `main` is in. -/
theorem works (h : Progress far m M stage) (hstage : stage ≠ .done) (hworks : Works M M')
    (hletters : ∀ b, ∀ l ∈ M.taken b, b = 0 ∧ l = inMessage far m ∨ b = 1 ∧ l = inReply far m) :
    Progress far m M' stage := by
  have hsent := hworks.sent
  cases hworks.advance with
  | same hdoing hreturned => exact h.congr hdoing hsent hreturned
  | sent hd hout hreturned =>
    have hnothing : doing (M'.threads main) = .nothing := by
      rw [hout, Function.update_self]
      rfl
    cases h with
    | start hd' _ _ => cases hd.symm.trans hd'
    | sent hs hr =>
      rcases hs with ⟨hd', -⟩ | ⟨-, hs⟩
      · cases hd.symm.trans hd'
      · exact .sent (.inr ⟨.inr hnothing, hsent.trans hs⟩) (hreturned.trans hr)
    | waiting _ hg => rcases hg with ⟨hd', -⟩ | ⟨hd', -⟩ <;> cases hd.symm.trans hd'
    | acked hs hr =>
      rcases hs with ⟨hd', -⟩ | ⟨-, hs⟩
      · cases hd.symm.trans hd'
      · exact .acked (.inr ⟨.inr hnothing, hsent.trans hs⟩) (hreturned.trans hr)
    | waitingAck _ hg => rcases hg with ⟨hd', -⟩ | ⟨hd', -⟩ <;> cases hd.symm.trans hd'
    | done _ _ => exact absurd rfl hstage
  | @got b l hd hout hl hreturned =>
    have hnothing : doing (M'.threads main) = .nothing := by
      rw [hout, Function.update_self]
      rfl
    have hletter := hletters b l hl
    cases h with
    | start hd' _ _ => cases hd.symm.trans hd'
    | sent hs _ =>
      rcases hs with ⟨hd', -⟩ | ⟨hd' | hd', -⟩ <;> cases hd.symm.trans hd'
    | waiting hs hg =>
      rcases hg with ⟨hd', hr⟩ | ⟨hd', -⟩
      · cases hd.symm.trans hd'
        obtain ⟨-, rfl⟩ := hletter.resolve_right fun h => absurd h.1 (by decide)
        exact .waiting (hsent.trans hs) (.inr ⟨hnothing, by rw [hreturned, hr]⟩)
      · cases hd.symm.trans hd'
    | acked hs _ =>
      rcases hs with ⟨hd', -⟩ | ⟨hd' | hd', -⟩ <;> cases hd.symm.trans hd'
    | waitingAck hs hg =>
      rcases hg with ⟨hd', hr⟩ | ⟨hd', -⟩
      · cases hd.symm.trans hd'
        obtain ⟨-, rfl⟩ := hletter.resolve_left fun h => absurd h.1 (by decide)
        exact .waitingAck (hsent.trans hs) (.inr ⟨hnothing, by rw [hreturned, hr]⟩)
      · cases hd.symm.trans hd'
    | done _ _ => exact absurd rfl hstage

end Progress

/-! ## All machines -/

variable {s s' : Test} {m : NetworkAddress}

/-- The letters that come to a machine are the message and the reply of the other one. -/
theorem Invariant.letter (h : Invariant far up s)
    (hs : (system fun _ => nBoxes).Reachable s.net) (hfar : ∀ m, far (far m) = m)
    {b : MailBoxAddress} {l : Letter} (hl : l ∈ (s.net m).taken b ∨ l ∈ (s.net m).carried b) :
    b = 0 ∧ l = inMessage far m ∨
      b = 1 ∧ l = inReply far m ∧ reply far (far m) ∈ (s.net (far m)).history.sent := by
  obtain ⟨p, hp, hto, hb, hletter⟩ := sent_of_reachable hs hl
  generalize l.pktHdr.fromAddress = f at hp hletter
  rcases (h.progress f).mem_sent hp with rfl | rfl
  · have hf : far f = m := hto
    have hm : f = far m := by rw [← hf, hfar]
    subst hm
    exact .inl ⟨hb.symm, hletter.symm⟩
  · have hf : far f = m := hto
    have hm : f = far m := by rw [← hf, hfar]
    subst hm
    exact .inr ⟨hb.symm, hletter.symm, hp⟩

/-- One machine goes on. -/
theorem Invariant.update (h : Invariant far up s) {M : Machine} {stage : Stage} (hcalm : Calm M)
    (hrun : M.running = true ↔ up m = true ∧ stage ≠ .done)
    (hprogress : Progress far m M stage) :
    Invariant far up ⟨Function.update s.net m M, Function.update s.stage m stage⟩ := by
  refine ⟨fun n => ?_, fun n => ?_, fun n => ?_⟩
  all_goals
    dsimp only
    by_cases hn : n = m
  · rw [hn, Function.update_self]
    exact hcalm
  · rw [Function.update_of_ne hn]
    exact h.calm n
  · rw [hn, Function.update_self, Function.update_self]
    exact hrun
  · rw [Function.update_of_ne hn, Function.update_of_ne hn]
    exact h.running n
  · rw [hn, Function.update_self, Function.update_self]
    exact hprogress
  · rw [Function.update_of_ne hn, Function.update_of_ne hn]
    exact h.progress n

theorem Invariant.updateNet (h : Invariant far up s) {M : Machine} (hcalm : Calm M)
    (hrun : M.running = (s.net m).running) (hprogress : Progress far m M (s.stage m)) :
    Invariant far up { s with net := Function.update s.net m M } := by
  have hstage : Function.update s.stage m (s.stage m) = s.stage := Function.update_eq_self _ _
  have hupdate := h.update (m := m) hcalm (by rw [hrun]; exact h.running m) hprogress
  rwa [hstage] at hupdate

/-- A packet in its socket does not change what a machine is doing. -/
theorem Invariant.deposit (h : Invariant far up s) (d : NetworkAddress) (packet : Packet) :
    Invariant far up { s with net := Function.update s.net d ((s.net d).deposit packet) } := by
  have hcalm := h.calm d
  exact h.updateNet
    ⟨hcalm.failed, hcalm.sendBusy, hcalm.messageSent, hcalm.others, hcalm.waiting⟩ rfl
    ((h.progress d).congr rfl rfl rfl)

/-- A machine that still has to send waits for a reply, so the other one is up. -/
theorem Invariant.far_running (h : Invariant far up s)
    (hs : (system fun _ => nBoxes).Reachable s.net) (hfar : ∀ m, far (far m) = m)
    (hup : ∀ m, up (far m) = up m) (hrun : (s.net m).running = true)
    (hno : reply far m ∉ (s.net m).history.sent) : (s.net (far m)).running = true := by
  rw [h.running, hup]
  refine ⟨((h.running m).mp hrun).1, fun hdone => ?_⟩
  have hprogress := h.progress (far m)
  rw [hdone] at hprogress
  cases hprogress with
  | done _ hreturned =>
    have hmem : (1, inReply far (far m)) ∈ (s.net (far m)).history.returned :=
      hreturned ▸ List.mem_cons_of_mem _ List.mem_cons_self
    have htaken := (sound_of_reachable hs (far m)).returned _ _ hmem
    rcases h.letter hs hfar (.inl htaken) with ⟨hzero, -⟩ | ⟨-, -, hreply⟩
    · exact absurd hzero (by decide)
    · rw [hfar] at hreply
      exact hno hreply

/-! ### The calls of `main` -/

/-- `main` has called the post office and is in the call. -/
structure Called (M M' : Machine) (d : Doing) : Prop where
  calm : Calm M'
  running : M'.running = M.running
  sent : M'.history.sent = M.history.sent
  returned : M'.history.returned = M.history.returned
  doing : doing (M'.threads main) = d

theorem Calm.moveTo {M : Machine} (h : Calm M) (hout : M.threads main = .outside) (pc : Pc) :
    Called M (M.moveTo main pc) (doing pc) := by
  refine ⟨⟨h.failed, h.sendBusy, h.messageSent, fun t ht => ?_, fun b => .inl ?_⟩, rfl, rfl, rfl,
    ?_⟩
  · exact (Function.update_of_ne ht _ _).trans (h.others t ht)
  · exact h.none_waits (fun b heq => nomatch hout.symm.trans heq) b
  · show MailTest.doing (Function.update M.threads main pc main) = _
    rw [Function.update_self]

/-- `Send` of bytes that fit in a mail, to a mail box. -/
theorem Calm.send {M : Machine} (h : Calm M) (hout : M.threads main = .outside)
    (pktHdr : PacketHeader) (box : MailBoxAddress) (l : List UInt8)
    (hbox : Machine.IsBox nBoxes box) (hl : l.length ≤ maxMailSize) (junk : Block) :
    Called M (M.send m nBoxes main pktHdr (outMailHdr box l) (memory l) junk)
      (.sending ⟨pktHdr.toAddress, outMailHdr box l, l⟩) := by
  rw [send_moveTo hbox hl]
  exact h.moveTo hout _

/-- `Receive` from a mail box. -/
theorem Calm.get {M : Machine} (h : Calm M) (hout : M.threads main = .outside)
    (box : MailBoxAddress) (hbox : Machine.IsBox nBoxes box) :
    Called M (M.get nBoxes main box) (.getting box) := by
  unfold Machine.get
  rw [if_pos hbox]
  exact h.moveTo hout _

theorem Invariant.call (h : Invariant far up s) {M : Machine} {d : Doing} {stage : Stage}
    (hrun : (s.net m).running = true) (hcall : Called (s.net m) M d) (hstage : stage ≠ .done)
    (hprogress : Progress far m M stage) : Invariant far up (s.call m M stage) := by
  refine h.update hcall.calm ?_ hprogress
  rw [hcall.running]
  exact iff_of_true hrun ⟨((h.running m).mp hrun).1, hstage⟩

/-- `Network::Send` in the call of `Send` that `main` is in. -/
theorem Progress.networkSend {M : Machine} {stage : Stage} {p : Parcel} (M' : Machine)
    (h : Progress far m M stage) (hstage : stage ≠ .done)
    (hd : doing (M.threads main) = .sending p) (hd' : doing (M'.threads main) = .sent)
    (hsent : M'.history.sent = M.history.sent ++ [p])
    (hreturned : M'.history.returned = M.history.returned) :
    Progress far m M' stage ∧ p.toAddress = far m ∧ reply far m ∉ M.history.sent := by
  cases h with
  | start hd'' _ _ => cases hd.symm.trans hd''
  | sent hs hr =>
    rcases hs with ⟨hp, hs⟩ | ⟨hp | hp, -⟩
    · cases hd.symm.trans hp
      refine ⟨.sent (.inr ⟨.inl hd', by rw [hsent, hs]⟩) (hreturned.trans hr), rfl, ?_⟩
      rw [hs]
      exact List.not_mem_nil
    · cases hd.symm.trans hp
    · cases hd.symm.trans hp
  | waiting _ hg => rcases hg with ⟨hp, -⟩ | ⟨hp, -⟩ <;> cases hd.symm.trans hp
  | acked hs hr =>
    rcases hs with ⟨hp, hs⟩ | ⟨hp | hp, -⟩
    · cases hd.symm.trans hp
      refine ⟨.acked (.inr ⟨.inl hd', by rw [hsent, hs]⟩) (hreturned.trans hr), rfl, ?_⟩
      rw [hs, List.mem_singleton]
      exact (message_ne_reply m).symm
    · cases hd.symm.trans hp
    · cases hd.symm.trans hp
  | waitingAck _ hg => rcases hg with ⟨hp, -⟩ | ⟨hp, -⟩ <;> cases hd.symm.trans hp
  | done _ _ => exact absurd rfl hstage

theorem Invariant.networkSend (h : Invariant far up s)
    (hs : (system fun _ => nBoxes).Reachable s.net) (hfar : ∀ m, far (far m) = m)
    (hup : ∀ m, up (far m) = up m) (hrun : (s.net m).running = true) {t : ThreadId} {p : Parcel}
    {hdr : PacketHeader} {body : Block} (hpc : (s.net m).threads t = .networkSend p hdr body)
    (lost : Bool) (junk : Block) :
    Invariant far up { s with net := Network.networkSend s.net m t p hdr body lost junk } := by
  have hcalm := h.calm m
  obtain rfl := hcalm.eq_main hpc (by nofun)
  have hok := (sound_of_reachable hs m).threads main
  rw [hpc] at hok
  obtain ⟨hsealed, rfl, -⟩ := hok
  have hd : doing ((s.net m).threads main) = .sending p := by
    rw [hpc]
    rfl
  have hd' : doing (((s.net m).networkSend main p).threads main) = .sent := by
    show doing (Function.update (s.net m).threads main .sendP main) = _
    rw [Function.update_self]
    rfl
  obtain ⟨hprogress, hto, hno⟩ := (h.progress m).networkSend ((s.net m).networkSend main p)
    ((h.running m).mp hrun).2 hd hd' rfl rfl
  have hcalm' : Calm ((s.net m).networkSend main p) := by
    refine ⟨hcalm.failed, hcalm.sendBusy, hcalm.messageSent, fun t ht => ?_, fun b => .inl ?_⟩
    · exact (Function.update_of_ne ht _ _).trans (hcalm.others t ht)
    · exact hcalm.none_waits (fun b heq => nomatch hpc.symm.trans heq) b
  have hlegal := send_legal hcalm.sendBusy hsealed
  have hother := h.far_running hs hfar hup hrun hno
  have hsent := h.updateNet (m := m) hcalm' rfl hprogress
  unfold Network.networkSend
  dsimp only
  rw [if_pos hlegal]
  cases lost with
  | true => exact hsent
  | false =>
    have hother' : (s.net (p.letter m).pktHdr.toAddress).running = true := by
      show (s.net p.toAddress).running = true
      rwa [hto]
    rw [if_neg Bool.false_ne_true, if_pos hother']
    exact hsent.deposit _ _

theorem Invariant.step (h : Invariant far up s)
    (hs : (system fun _ => nBoxes).Reachable s.net) (hfar : ∀ m, far (far m) = m)
    (hup : ∀ m, up (far m) = up m) (hstep : Step far s s') : Invariant far up s' := by
  have hletter : ∀ m b, ∀ l ∈ (s.net m).taken b,
      b = 0 ∧ l = inMessage far m ∨ b = 1 ∧ l = inReply far m := fun m b l hl =>
    (h.letter hs hfar (.inl hl)).imp id fun ⟨hb, hl, _⟩ => ⟨hb, hl⟩
  cases hstep with
  | @machine m M hrun hM hno =>
    have hworks : Works (s.net m) M := by
      refine (h.calm m).step (sound_of_reachable hs m) (fun l hl => ?_) (fun b l hl => ?_) hM hno
      · have hcarried : l ∈ (s.net m).carried l.mailHdr.toAddress :=
          List.mem_append_right _ (List.mem_filter.mpr ⟨hl, decide_eq_true rfl⟩)
        rcases h.letter hs hfar (.inr hcarried) with ⟨hb, -⟩ | ⟨hb, -⟩
        · rw [hb]
          decide
        · rw [hb]
          decide
      · rcases hletter m b l hl with ⟨-, rfl⟩ | ⟨-, rfl⟩
        · exact message_fits
        · exact reply_fits
    have hstage := ((h.running m).mp hrun).2
    exact h.updateNet hworks.calm hworks.running
      ((h.progress m).works hstage hworks (hletter m))
  | networkSend hrun hpc lost junk => exact h.networkSend hs hfar hup hrun hpc lost junk
  | @send m hrun hstage hout outPktHdr junk =>
    have hcall := (h.calm m).send (m := m) hout { outPktHdr with toAddress := far m } 0 data
      (by decide) (by decide) junk
    have hprogress := h.progress m
    rw [hstage] at hprogress
    cases hprogress with
    | start _ hsent hr =>
      exact h.call hrun hcall nofun (.sent (.inl ⟨hcall.doing, hcall.sent.trans hsent⟩)
        (hcall.returned.trans hr))
  | @receive m hrun hstage hout =>
    have hcall := (h.calm m).get hout 0 (by decide)
    have hprogress := h.progress m
    rw [hstage] at hprogress
    cases hprogress with
    | sent hsends hr =>
      have hsent := hsends.resolve_left fun h => nomatch (congrArg doing hout).symm.trans h.1
      exact h.call hrun hcall nofun (.waiting (hcall.sent.trans hsent.2)
        (.inl ⟨hcall.doing, hcall.returned.trans hr⟩))
  | @acknowledge m l hrun hstage hout hin outPktHdr junk =>
    have hprogress := h.progress m
    rw [hstage] at hprogress
    cases hprogress with
    | waiting hsent hgets =>
      obtain ⟨-, hr⟩ := hgets.resolve_left fun h => nomatch (congrArg doing hout).symm.trans h.1
      have hl : l = inMessage far m := by
        unfold lastLetter at hin
        rw [hr] at hin
        cases hin
        rfl
      subst hl
      have hcall := (h.calm m).send (m := m) hout { outPktHdr with toAddress := far m } 1 ack
        (by decide) (by decide) junk
      exact h.call hrun hcall nofun (.acked (.inl ⟨hcall.doing, hcall.sent.trans hsent⟩)
        (hcall.returned.trans hr))
  | @receiveAck m hrun hstage hout =>
    have hcall := (h.calm m).get hout 1 (by decide)
    have hprogress := h.progress m
    rw [hstage] at hprogress
    cases hprogress with
    | acked hsends hr =>
      have hsent := hsends.resolve_left fun h => nomatch (congrArg doing hout).symm.trans h.1
      exact h.call hrun hcall nofun (.waitingAck (hcall.sent.trans hsent.2)
        (.inl ⟨hcall.doing, hcall.returned.trans hr⟩))
  | @powerdown m hrun hstage hout =>
    have hcalm := h.calm m
    have hprogress := h.progress m
    rw [hstage] at hprogress
    cases hprogress with
    | waitingAck hsent hgets =>
      obtain ⟨-, hr⟩ := hgets.resolve_left fun h => nomatch (congrArg doing hout).symm.trans h.1
      exact h.update
        ⟨hcalm.failed, hcalm.sendBusy, hcalm.messageSent, hcalm.others, hcalm.waiting⟩
        (iff_of_false Bool.false_ne_true fun hdone => hdone.2 rfl) (.done hsent hr)

/-- At the start nothing has been sent. -/
theorem invariant_init (h : (mailTest far up).init s) : Invariant far up s := by
  obtain ⟨hinit, hup, hstage⟩ := h
  refine ⟨fun m => ?_, fun m => ?_, fun m => ?_⟩
  · have hm := hinit m
    refine ⟨hm.failed, hm.sendBusy, ?_, fun t _ => hm.threads t, fun b => .inl ?_⟩
    · rw [hm.messageSent]
    · rw [hm.boxes]
  · rw [hup, hstage]
    exact ⟨fun h => ⟨h, nofun⟩, And.left⟩
  · have hm := hinit m
    rw [hstage]
    refine .start ?_ ?_ ?_
    · rw [hm.threads]
      rfl
    · rw [hm.history]
    · rw [hm.history]

/-- Whatever packets the network loses, no assertion fails in the mail test, so no packet is
sent to a machine that has powered down; and a machine powers down when it has received the
message and the reply of the other one, which then has received its message. -/
theorem mailTest_safe (hfar : ∀ m, far (far m) = m) (hup : ∀ m, up (far m) = up m)
    (hs : (mailTest far up).Reachable s) :
    (∀ m, (s.net m).failed = []) ∧
    ∀ m, s.stage m = .done →
      (s.net m).history.returned = [(0, inMessage far m), (1, inReply far m)] ∧
      (0, (message far m).letter m) ∈ (s.net (far m)).history.returned := by
  have hinv : Invariant far up s ∧ (mailTest far up).Reachable s := by
    refine hs.induct (I := fun s => Invariant far up s ∧ (mailTest far up).Reachable s) ?_ ?_
    · exact fun s hinit => ⟨invariant_init hinit, .of_init hinit⟩
    · exact fun s s' h hstep =>
        ⟨h.1.step (net_reachable h.2) hfar hup hstep, h.2.step hstep⟩
  have h := hinv.1
  refine ⟨fun m => (h.calm m).failed, fun m hdone => ?_⟩
  have hprogress := h.progress m
  rw [hdone] at hprogress
  cases hprogress with
  | done _ hr =>
    refine ⟨hr, ?_⟩
    have hmem : (1, inReply far m) ∈ (s.net m).history.returned :=
      hr ▸ List.mem_cons_of_mem _ List.mem_cons_self
    have htaken := (sound_of_reachable (net_reachable hs) m).returned _ _ hmem
    rcases h.letter (net_reachable hs) hfar (.inl htaken) with ⟨hzero, -⟩ | ⟨-, -, hreply⟩
    · exact absurd hzero (by decide)
    · have hgot := (h.progress (far m)).returned_of_reply hreply
      rw [inMessage, hfar] at hgot
      exact hgot

/-! ## Two machines -/

/-- Machines 0 and 1 have each other. -/
def other (m : NetworkAddress) : NetworkAddress :=
  if m = 0 then 1 else if m = 1 then 0 else m

theorem other_other (m : NetworkAddress) : other (other m) = m := by
  unfold other
  by_cases h₀ : m = 0
  · rw [if_pos h₀, h₀]
    decide
  · by_cases h₁ : m = 1
    · rw [if_neg h₀, if_pos h₁, h₁]
      decide
    · rw [if_neg h₀, if_neg h₁, if_neg h₀, if_neg h₁]

/-- The two machines have their exchange and power down. -/
theorem mailTest_safe_two_machines :
    ∃ s, (mailTest other fun _ => true).Reachable s ∧ s.stage 0 = .done ∧ s.stage 1 = .done ∧
      (∀ m, (s.net m).failed = []) ∧
      (s.net 0).history.returned = [(0, inMessage other 0), (1, inReply other 0)] ∧
      (0, (message other 0).letter 0) ∈ (s.net (other 0)).history.returned := by
  have hmeet := @Meet.exchange other (fun _ => true) 0 other_other (by decide) fun _ => rfl
  obtain ⟨s, hs, hdone, hother⟩ := hmeet.powersDown (by decide)
  obtain ⟨hfailed, hexchange⟩ := mailTest_safe other_other (fun _ => rfl) hs
  obtain ⟨hreturned, hgot⟩ := hexchange 0 hdone
  exact ⟨s, hs, hdone, hother, hfailed, hreturned, hgot⟩

end MailTest

end Network
end Nachos
