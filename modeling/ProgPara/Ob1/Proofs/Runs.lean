import ProgPara.Ob1.Proofs.Channel
import ProgPara.Ob1.Proofs.Receiver

/-!
# Jobs in which messages are matched in order

`Paced` bounds how far the network may get ahead: no message arrives `2 ^ 16 - 1`
or more ahead of one that was not handed to matching yet, and none meets the
rollover of the ring it joins.  In a run that keeps to it every process works off
a history of its own, in which the messages of a channel arrive in the order they
were sent.
-/

namespace ProgPara.Ob1

open Function Matching

variable {P M : Type*} [DecidableEq P]

namespace Job

/-- The messages from `src` that `dst` has not handed to matching. -/
def pending (job : Job P M) (G : Group P) (src dst : P) : List (Fragment M) :=
  job.inFlight src dst ++ frags ((job.comms dst).procs (G.rank src)).fragsCantMatch

/-- The fragment lies less than a turn of the sequence numbers ahead of all that was not
handed on, and the head of the ring does not hide it. -/
def InReach (G : Group P) (job : Job P M) (packet : Packet P M) : Prop :=
  (∀ g ∈ job.pending G packet.src packet.dst,
      packet.frag.segments.1 < g.segments.1 + 65535) ∧
    ¬RollsOver ((job.comms packet.dst).procs (G.rank packet.src)).expectedSequence
      packet.frag.hdrSeq
      ((job.comms packet.dst).procs (G.rank packet.src)).fragsCantMatch

/-- What is sent has a tag that is not `OMPI_ANY_TAG`, the requests of a process
are numbered without wrapping around and none of them asks for any source where it
was asserted that none would. -/
def Legal (job : Job P M) : Action P M → Prop
  | .send _ _ _ tag _ => tag ≠ anyTag
  | .deliver _ => True
  | .check _ _ => True
  | .start p req => (job.comms p).recvSequence.toNat + 1 < 2 ^ 32 ∧
      ((job.comms p).noAnySource → req.reqPeer ≠ none)
  | .cancel _ _ => True

instance (job : Job P M) (a : Action P M) : Decidable (Legal job a) := by
  cases a with
  | send => exact inferInstanceAs (Decidable (_ ≠ _))
  | deliver => exact inferInstanceAs (Decidable True)
  | check => exact inferInstanceAs (Decidable True)
  | start => exact inferInstanceAs (Decidable (_ ∧ _))
  | cancel => exact inferInstanceAs (Decidable True)

structure Paced (G : Group P) (job : Job P M) (a : Action P M) : Prop where
  legal : Legal job a
  inReach : ∀ n packet, a = .deliver n → job.flying[n]? = some packet → InReach G job packet

abbrev Histories (P M : Type*) := P → History RecvRequest (Fragment M) Nat

structure Orderly (G : Group P) (job : Job P M) (h : Histories P M) : Prop where
  accounted : Accounted G job
  numProcs : ∀ p, (job.comms p).numProcs = G.size p
  noOvertake : ∀ p, (job.comms p).allowOvertake = false
  sendSequence : ∀ src dst, G.reaches src dst →
    ((job.comms src).procs (G.rank dst)).sendSequence = UInt32.ofNat (job.sent src dst).length
  legal : ∀ src dst, ∀ frag ∈ job.sent src dst, frag.hdrTag ≠ anyTag
  checked : ∀ p peer, job.checks p peer ≠ 0 → G.reaches peer p
  receiving : ∀ p,
    Receiving (job.comms p) (job.asked p) (job.cancelled p) (job.log p) (h p)
  silent : ∀ p rank, (∀ src, G.reaches src p → G.rank src ≠ rank) → (h p).arrived rank = []
  arrived : ∀ src dst, G.reaches src dst → (h dst).arrived (G.rank src) <+: job.sent src dst
  channel : ∀ src dst, G.reaches src dst →
    Channel (job.sent src dst) (job.inFlight src dst)
      ((h dst).arrived (G.rank src)).length
      ((job.comms dst).procs (G.rank src)).sequencing (job.checks dst src)

namespace Orderly

variable {G : Group P} {p : P} {job job' : Job P M} {h : Histories P M}

theorem of_proc (ho : Orderly G job h) {comm : Comm (Nat × M)}
    {h' : History RecvRequest (Fragment M) Nat} (ha : Accounted G job')
    (hcomms : job'.comms = update job.comms p comm) (hsent : job'.sent = job.sent)
    (hasked : ∀ q ≠ p, job'.asked q = job.asked q)
    (hcancelled : ∀ q ≠ p, job'.cancelled q = job.cancelled q)
    (hlog : ∀ q ≠ p, job'.log q = job.log q)
    (hchecks : ∀ q ≠ p, job'.checks q = job.checks q)
    (hchecked : ∀ peer, job'.checks p peer ≠ 0 → G.reaches peer p)
    (hflying : ∀ src, ∀ q ≠ p, (job.inFlight src q).Perm (job'.inFlight src q))
    (hsettings : comm.settings = (job.comms p).settings)
    (hreceiving : Receiving comm (job'.asked p) (job'.cancelled p) (job'.log p) h')
    (hsilent : ∀ rank, (∀ src, G.reaches src p → G.rank src ≠ rank) → h'.arrived rank = [])
    (harrived : ∀ src, G.reaches src p → h'.arrived (G.rank src) <+: job.sent src p)
    (hchannel : ∀ src, G.reaches src p → Channel (job.sent src p) (job'.inFlight src p)
      (h'.arrived (G.rank src)).length (comm.procs (G.rank src)).sequencing
      (job'.checks p src)) :
    Orderly G job' (update h p h') := by
  have hread : ∀ {α : Type _} (f : Comm (Nat × M) → α), (∀ c, f c.settings = f c) →
      ∀ q, f (job'.comms q) = f (job.comms q) := by
    intro α f hf q
    rw [hcomms]
    by_cases hq : q = p
    · subst hq
      rw [update_self, ← hf comm, hsettings, hf]
    · rw [update_of_ne hq]
  refine ⟨ha, ?_, ?_, ?_, hsent ▸ ho.legal, ?_, ?_, ?_, ?_, ?_⟩
  · intro q
    rw [hread Comm.numProcs fun _ => rfl]
    exact ho.numProcs q
  · intro q
    rw [hread Comm.allowOvertake fun _ => rfl]
    exact ho.noOvertake q
  · intro src dst
    rw [hread (fun c => (c.procs (G.rank dst)).sendSequence) fun _ => rfl, hsent]
    exact ho.sendSequence src dst
  · intro q peer
    by_cases hq : q = p
    · subst hq
      exact hchecked peer
    · rw [hchecks q hq]
      exact ho.checked q peer
  · intro q
    by_cases hq : q = p
    · subst hq
      rw [hcomms, update_self, update_self]
      exact hreceiving
    · rw [hcomms, update_of_ne hq, update_of_ne hq, hasked q hq, hcancelled q hq, hlog q hq]
      exact ho.receiving q
  · intro q
    by_cases hq : q = p
    · subst hq
      rw [update_self]
      exact hsilent
    · rw [update_of_ne hq]
      exact ho.silent q
  · intro src q
    rw [hsent]
    by_cases hq : q = p
    · subst hq
      rw [update_self]
      exact harrived src
    · rw [update_of_ne hq]
      exact ho.arrived src q
  · intro src q hlink
    rw [hsent, hcomms]
    by_cases hq : q = p
    · subst hq
      rw [update_self, update_self]
      exact hchannel src hlink
    · rw [update_of_ne hq, update_of_ne hq, hchecks q hq]
      exact (ho.channel src q hlink).perm (hflying src q hq)

section Hand

variable {src : P} {frag : Fragment M} (ho : Orderly G job h) (hlink : G.reaches src p)
  (hnext : (job.sent src p)[((h p).arrived (G.rank src)).length]? = some frag)
include ho hlink hnext

theorem arrived_concat : (h p).arrived (G.rank src) ++ [frag] <+: job.sent src p := by
  obtain ⟨rest, hrest⟩ := ho.arrived src p hlink
  rw [← hrest, List.getElem?_append_right (Nat.le_refl _), Nat.sub_self] at hnext
  cases rest with
  | nil => cases hnext
  | cons f rest =>
      cases hnext
      exact ⟨rest, by rw [← hrest, List.append_assoc]; rfl⟩

theorem arrived_fresh : frag ∉ (h p).arrived (G.rank src) := by
  have hnodup := (ho.accounted.numbered src p).nodup
  have hsub := (ho.arrived_concat hlink hnext).sublist
  intro hmem
  have hdisj := (List.nodup_append.mp (hnodup.sublist hsub)).2.2
  exact hdisj frag hmem frag List.mem_cons_self rfl

/-- Handing on the next message of a channel, `comm` being the communicator as the
section finds it. -/
theorem hand {comm : Comm (Nat × M)} (ha : Accounted G job')
    (hcomms : job'.comms = update job.comms p (matchThisFrag comm (G.rank src) frag).1)
    (hlog : job'.log =
      update job.log p (job.log p ++ (matchThisFrag comm (G.rank src) frag).2))
    (hsent : job'.sent = job.sent) (hasked : job'.asked = job.asked)
    (hcancelled : job'.cancelled = job.cancelled)
    (hchecks : ∀ q ≠ p, job'.checks q = job.checks q)
    (hchecked : ∀ peer ≠ src, job'.checks p peer = job.checks p peer)
    (hflying : ∀ src, ∀ q ≠ p, (job.inFlight src q).Perm (job'.inFlight src q))
    (hfixed : comm.fixed = (job.comms p).fixed)
    (hreceiving : Receiving comm (job.asked p) (job.cancelled p) (job.log p) (h p))
    (hchannel : Channel (job.sent src p) (job'.inFlight src p)
      (((h p).arrived (G.rank src)).length + 1)
      ⟨(comm.procs (G.rank src)).expectedSequence + 1,
        (comm.procs (G.rank src)).fragsCantMatch⟩
      (job'.checks p src))
    (hothers : ∀ q ≠ src, G.reaches q p →
      Channel (job.sent q p) (job'.inFlight q p) ((h p).arrived (G.rank q)).length
        (comm.procs (G.rank q)).sequencing (job'.checks p q)) :
    Orderly G job' (update h p ((h p).arrive rules (G.rank src) frag)) := by
  have htag := ho.legal src p frag (List.mem_of_getElem? hnext)
  have hsrc : G.rank src < comm.numProcs := by
    rw [Comm.eq_of_fixed Comm.numProcs (fun _ => rfl) hfixed, ho.numProcs p]
    exact G.rank_lt hlink
  have hother : ∀ q ≠ src, G.reaches q p → G.rank q ≠ G.rank src :=
    fun q hq hqlink heq => hq (G.rank_inj hqlink hlink heq)
  refine ho.of_proc ha hcomms hsent (fun q _ => by rw [hasked])
    (fun q _ => by rw [hcancelled]) (fun q hq => by rw [hlog, update_of_ne hq]) hchecks ?_
    hflying ?_ ?_ ?_ ?_ ?_
  · intro peer hpeer
    by_cases hsrc : peer = src
    · exact hsrc ▸ hlink
    · exact ho.checked p peer (hchecked peer hsrc ▸ hpeer)
  · exact Comm.settings_of_fixed ((matchThisFrag_fixed comm (G.rank src) frag).trans hfixed)
  · rw [hasked, hcancelled, hlog, update_self]
    exact hreceiving.matchThisFrag hsrc htag (ho.arrived_fresh hlink hnext)
  · intro rank hrank
    rw [History.arrived_arrive_of_ne (Ne.symm (hrank src hlink))]
    exact ho.silent p rank hrank
  · intro q hqlink
    by_cases hq : q = src
    · subst hq
      rw [History.arrived_arrive_self]
      exact ho.arrived_concat hlink hnext
    · rw [History.arrived_arrive_of_ne (hother q hq hqlink)]
      exact ho.arrived q p hqlink
  · intro q hqlink
    rw [matchThisFrag_sequencing_eq]
    by_cases hq : q = src
    · subst hq
      rw [if_pos rfl, History.arrived_arrive_self, List.length_append]
      exact hchannel
    · rw [if_neg (hother q hq hqlink), History.arrived_arrive_of_ne (hother q hq hqlink)]
      exact hothers q hq hqlink

end Hand

/-! ## Fragments that arrive -/

section Deliver

variable {n : Nat} {src dst : P} {frag : Fragment M} (ho : Orderly G job h)
  (hflying : job.flying[n]? = some ⟨src, dst, frag⟩)
include hflying

theorem inFlight_perm_self :
    (job.inFlight src dst).Perm
      ({ job with flying := job.flying.eraseIdx n }.inFlight src dst ++ [frag]) := by
  simpa using inFlight_eraseIdx hflying src dst

theorem inFlight_perm_of_ne {q q' : P} (hne : ¬(src = q ∧ dst = q')) :
    (job.inFlight q q').Perm
      ({ job with flying := job.flying.eraseIdx n }.inFlight q q') := by
  simpa [hne] using inFlight_eraseIdx hflying q q'

theorem mem_pending : frag ∈ job.pending G src dst := by
  refine List.mem_append_left _ ?_
  rw [(inFlight_perm_self hflying).mem_iff]
  exact List.mem_append_right _ List.mem_cons_self

include ho

theorem linked : G.reaches src dst ∧ frag.hdrSrc = G.rank src :=
  ho.accounted.packets ⟨src, dst, frag⟩ (List.mem_of_getElem? hflying)

theorem window_of_inReach (hreach : InReach G job ⟨src, dst, frag⟩) :
    frag.segments.1 < ((h dst).arrived (G.rank src)).length + 65535 :=
  (ho.channel src dst (ho.linked hflying).1).lt_of_forall (ho.accounted.numbered _ _)
    (mem_pending hflying) hreach.1

theorem queue (hseq : frag.hdrSeq ≠ ((job.comms dst).procs (G.rank src)).expectedSequence)
    (hreach : InReach G job ⟨src, dst, frag⟩) {s : Locked (Nat × M)}
    (hs : s = ⟨appendCantMatch (job.comms dst) (G.rank src) frag, [], false⟩)
    (ha : Accounted G ({ job with flying := job.flying.eraseIdx n }.leave dst src
      (job.checks dst src) s)) :
    Orderly G ({ job with flying := job.flying.eraseIdx n }.leave dst src
      (job.checks dst src) s) (update h dst (h dst)) := by
  subst hs
  obtain ⟨hlink, -⟩ := ho.linked hflying
  have hwindow := ho.window_of_inReach hflying hreach
  have hc := ho.channel src dst hlink
  have hn := ho.accounted.numbered src dst
  refine ho.of_proc ha rfl rfl (fun _ _ => rfl) (fun _ _ => rfl) ?_ ?_ ?_ ?_ ?_ ?_
    (ho.silent dst) (fun src => ho.arrived src dst) ?_
  · exact fun q hq => update_of_ne hq ..
  · exact fun q hq => update_of_ne hq ..
  · intro peer hpeer
    by_cases hsrc : peer = src
    · exact hsrc ▸ hlink
    · refine ho.checked dst peer ?_
      simpa [leave, set, hsrc] using hpeer
  · exact fun q q' hq => inFlight_perm_of_ne hflying fun h => hq h.2.symm
  · exact Comm.settings_of_fixed (Comm.fixed_setProc _ rfl)
  · have hlog : ({ job with flying := job.flying.eraseIdx n }.leave dst src
        (job.checks dst src)
        ⟨appendCantMatch (job.comms dst) (G.rank src) frag, [], false⟩).log dst =
        job.log dst := by simp [leave, set]
    rw [hlog]
    exact (ho.receiving dst).setProc rfl rfl
  · intro q hqlink
    simp only [leave, set, update_self, appendCantMatch, setProc_sequencing]
    by_cases hq : q = src
    · subst hq
      rw [if_pos rfl, update_self]
      exact hc.queue hn (inFlight_perm_self hflying) hseq hwindow hreach.2
    · rw [if_neg fun heq => hq (G.rank_inj hqlink hlink heq), update_of_ne hq]
      exact (ho.channel q dst hqlink).perm
        (inFlight_perm_of_ne hflying fun h => hq h.1.symm)

theorem deliver {s : Locked (Nat × M)} (hs : Entered (job.comms dst) frag s)
    (ha : Accounted G ({ job with flying := job.flying.eraseIdx n }.leave dst src
      (job.checks dst src) s)) (hreach : InReach G job ⟨src, dst, frag⟩) :
    ∃ h', Orderly G ({ job with flying := job.flying.eraseIdx n }.leave dst src
      (job.checks dst src) s) h' := by
  obtain ⟨hlink, hsrc⟩ := ho.linked hflying
  cases hs with
  | overtakes _ hovertake =>
      rw [ho.noOvertake dst] at hovertake
      cases hovertake
  | queued _ hseq =>
      rw [hsrc] at hseq ha ⊢
      exact ⟨_, ho.queue hflying hseq hreach rfl ha⟩
  | inTurn hseq =>
      rw [hsrc] at hseq ha ⊢
      have hwindow := ho.window_of_inReach hflying hreach
      have hc := ho.channel src dst hlink
      have hn := ho.accounted.numbered src dst
      have hnumber := (hc.seq_eq_expected hn (mem_pending hflying) hwindow).mp hseq
      have hnext := hc.handed_getElem? hn (mem_pending hflying) hnumber
      refine ⟨_, ho.hand hlink hnext ha rfl rfl rfl rfl rfl ?_ ?_ ?_ rfl (ho.receiving dst)
        ?_ ?_⟩
      · exact fun q hq => update_of_ne hq ..
      · intro peer hpeer
        simp [leave, set, hpeer]
      · exact fun q q' hq => inFlight_perm_of_ne hflying fun h => hq h.2.symm
      · have hhand := hc.hand hn (inFlight_perm_self hflying) hseq hwindow
        simp only [leave, set, update_self, if_true]
        exact hhand
      · intro q hq hqlink
        simp only [leave, set, update_self, update_of_ne hq]
        exact (ho.channel q dst hqlink).perm
          (inFlight_perm_of_ne hflying fun h => hq h.1.symm)

end Deliver

theorem check {peer : P} {s : Locked (Nat × M)} (ho : Orderly G job h)
    (hchecks : job.checks p peer ≠ 0) (hs : Resumed (job.comms p) (G.rank peer) s)
    (ha : Accounted G (job.leave p peer (job.checks p peer - 1) s)) :
    ∃ h', Orderly G (job.leave p peer (job.checks p peer - 1) s) h' := by
  have hlink := ho.checked p peer hchecks
  have hc := ho.channel peer p hlink
  have hn := ho.accounted.numbered peer p
  cases hs with
  | nothing htake =>
      have hnone := Option.map_eq_none_iff.mp htake
      refine ⟨update h p (h p), ho.of_proc ha rfl rfl (fun _ _ => rfl)
        (fun _ _ => rfl) ?_ ?_ ?_ ?_ rfl ?_ (ho.silent p) (fun src => ho.arrived src p) ?_⟩
      · exact fun q hq => update_of_ne hq ..
      · exact fun q hq => update_of_ne hq ..
      · intro q hq
        by_cases hpeer : q = peer
        · exact hpeer ▸ hlink
        · refine ho.checked p q ?_
          simpa [leave, set, hpeer] using hq
      · exact fun src q hq => .refl _
      · have hlog : (job.leave p peer (job.checks p peer - 1)
            ⟨job.comms p, [], false⟩).log p = job.log p := by simp [leave, set]
        rw [hlog]
        exact ho.receiving p
      · intro q hqlink
        simp only [leave, set, update_self]
        by_cases hq : q = peer
        · subst hq
          exact hc.check_none hnone _
        · rw [update_of_ne hq]
          exact ho.channel q p hqlink
  | @next frag comm' htake =>
      obtain ⟨⟨f, ring⟩, hcheck, heq⟩ := Option.map_eq_some_iff.mp htake
      cases heq
      obtain ⟨hnext, hchannel⟩ := hc.check hn hchecks hcheck
      have hwaiting : job.checks p peer - 1 + 1 = job.checks p peer := by omega
      refine ⟨_, ho.hand hlink hnext ha rfl rfl rfl rfl rfl ?_ ?_ ?_ ?_ ?_ ?_ ?_⟩
      · exact fun q hq => update_of_ne hq ..
      · intro q hq
        simp [leave, set, hq]
      · exact fun src q hq => .refl _
      · exact Comm.fixed_setProc _ rfl
      · exact (ho.receiving p).setProc rfl rfl
      · simp only [leave, set, update_self, if_true, hwaiting, Comm.setProc]
        exact hchannel
      · intro q hq hqlink
        have hrank : G.rank q ≠ G.rank peer := fun h => hq (G.rank_inj hqlink hlink h)
        simp only [leave, set, update_self, update_of_ne hq, update_of_ne hrank, Comm.setProc]
        exact ho.channel q p hqlink

/-! ## Calls -/

theorem start {req : RecvRequest} (ho : Orderly G job h)
    (hwrap : (job.comms p).recvSequence.toNat + 1 < 2 ^ 32)
    (hno : (job.comms p).noAnySource → req.reqPeer ≠ none)
    {r : Comm (Nat × M) × List (Match (Nat × M))}
    (hr : r = recvReqStart (job.comms p) req)
    (hjob : job' = { job.set p r.1 r.2 with
      asked := update job.asked p (job.asked p ++ [assigned (job.comms p) req]) })
    (ha : Accounted G job') :
    Orderly G job' (update h p ((h p).post rules (searchOrder (job.comms p) req)
      (assigned (job.comms p) req))) := by
  subst hr hjob
  refine ho.of_proc ha rfl rfl ?_ (fun _ _ => rfl) ?_ (fun _ _ => rfl) (ho.checked p)
    (fun _ _ _ => .refl _) ?_ ?_ (ho.silent p) (fun src => ho.arrived src p) ?_
  · exact fun q hq => update_of_ne hq ..
  · exact fun q hq => update_of_ne hq ..
  · obtain ⟨probed, hfixed⟩ := recvReqStart_fixed (job.comms p) req
    rw [Comm.settings, hfixed]
    rfl
  · simp only [set, update_self]
    exact (ho.receiving p).recvReqStart hwrap hno
  · intro src hlink
    rw [recvReqStart_sequencing]
    exact ho.channel src p hlink

theorem cancel {req : RecvRequest} (ho : Orderly G job h)
    (hjob : job' = { job.set p (recvRequestCancel (job.comms p) req) [] with
      cancelled := update job.cancelled p (job.cancelled p ++ [req]) })
    (ha : Accounted G job') : Orderly G job' (update h p ((h p).cancel req)) := by
  subst hjob
  refine ho.of_proc ha rfl rfl (fun _ _ => rfl) ?_ ?_ (fun _ _ => rfl) (ho.checked p)
    (fun _ _ _ => .refl _) ?_ ?_ (ho.silent p) (fun src => ho.arrived src p) ?_
  · exact fun q hq => update_of_ne hq ..
  · exact fun q hq => update_of_ne hq ..
  · exact Comm.settings_of_fixed (recvRequestCancel_fixed _ req)
  · simp only [set, update_self, List.append_nil]
    exact (ho.receiving p).recvRequestCancel req
  · intro src hlink
    rw [recvRequestCancel_sequencing]
    exact ho.channel src p hlink

theorem toUInt16_succ (n : Nat) :
    (UInt32.ofNat n + 1).toUInt16 = Sequence.wire (n + 1) := by
  rw [← UInt16.toNat_inj, Sequence.wire_toNat, UInt32.toNat_toUInt16, UInt32.toNat_add]
  simp only [UInt32.toNat_ofNat', UInt32.toNat_one]
  omega

theorem send {src dst : P} {hdrType : HdrType} {tag : Int} {data : M}
    (ho : Orderly G job h) (hlink : G.reaches src dst) (htag : tag ≠ anyTag)
    {sent : Comm (Nat × M) × Fragment M}
    (hsent : sent = sendFrag (job.comms src) (G.rank dst) hdrType tag
      ((job.sent src dst).length, data))
    (hjob : job' = (job.set src sent.1 []).launch src dst sent.2) (ha : Accounted G job') :
    Orderly G job' h := by
  rw [sendFrag_eq _ (ho.noOvertake src), ho.sendSequence src dst hlink, toUInt16_succ]
    at hsent
  have hcomms : job'.comms = update job.comms src sent.1 := by
    rw [hjob]
    rfl
  have hlog : job'.log = job.log := by
    rw [hjob]
    simp [launch, set]
  have hself : job'.sent src dst = job.sent src dst ++ [sent.2] := by
    rw [hjob, launch_sent_self]
    rfl
  have hother : ∀ p q, ¬(p = src ∧ q = dst) → job'.sent p q = job.sent p q := by
    intro p q hpq
    rw [hjob, launch_sent_of_ne hpq]
    rfl
  have hproc : ∀ p peer, ((job'.comms p).procs peer).sequencing =
      ((job.comms p).procs peer).sequencing := by
    intro p peer
    rw [hcomms]
    by_cases hp : p = src
    · subst hp
      rw [update_self, hsent]
      refine setProc_sequencing_eq ?_ peer
      rfl
    · rw [update_of_ne hp]
  have hread : ∀ {α : Type _} (f : Comm (Nat × M) → α),
      (∀ c proc, f (c.setProc (G.rank dst) proc) = f c) →
      ∀ q, f (job'.comms q) = f (job.comms q) := by
    intro α f hf q
    rw [hcomms]
    by_cases hq : q = src
    · subst hq
      rw [update_self, hsent]
      exact hf _ _
    · rw [update_of_ne hq]
  refine ⟨ha, ?_, ?_, ?_, ?_, ?_, ?_, ho.silent, ?_, ?_⟩
  · intro q
    rw [hread Comm.numProcs fun _ _ => rfl]
    exact ho.numProcs q
  · intro q
    rw [hread Comm.allowOvertake fun _ _ => rfl]
    exact ho.noOvertake q
  · intro p q hpq
    rw [hcomms]
    by_cases hp : p = src
    · subst hp
      rw [update_self, hsent]
      by_cases hq : q = dst
      · subst hq
        rw [hself, List.length_append]
        simp [Comm.setProc]
      · -- two processes that `p` reaches have different ranks
        have hrank : G.rank q ≠ G.rank dst := fun h =>
          hq (G.rank_inj (G.reaches_symm hpq) (G.reaches_symm hlink) h)
        rw [hother p q fun h => hq h.2]
        have hold := ho.sendSequence p q hpq
        simpa [Comm.setProc, hrank] using hold
    · rw [update_of_ne hp, hother p q fun h => hp h.1]
      exact ho.sendSequence p q hpq
  · intro p q frag hfrag
    by_cases hpq : p = src ∧ q = dst
    · obtain ⟨rfl, rfl⟩ := hpq
      rw [hself] at hfrag
      rcases List.mem_append.mp hfrag with hfrag | hfrag
      · exact ho.legal p q frag hfrag
      · rw [List.mem_singleton.mp hfrag, hsent]
        exact htag
    · rw [hother p q hpq] at hfrag
      exact ho.legal p q frag hfrag
  · have hchecks : job'.checks = job.checks := by
      rw [hjob]
      rfl
    rw [hchecks]
    exact ho.checked
  · intro q
    have hasked : job'.asked = job.asked := by
      rw [hjob]
      rfl
    have hcancelled : job'.cancelled = job.cancelled := by
      rw [hjob]
      rfl
    rw [hcomms, hlog, hasked, hcancelled]
    by_cases hq : q = src
    · subst hq
      rw [update_self, hsent]
      exact (ho.receiving q).setProc rfl rfl
    · rw [update_of_ne hq]
      exact ho.receiving q
  · intro p q hlink'
    by_cases hpq : p = src ∧ q = dst
    · obtain ⟨rfl, rfl⟩ := hpq
      rw [hself]
      exact (ho.arrived p q hlink').trans (List.prefix_append _ _)
    · rw [hother p q hpq]
      exact ho.arrived p q hlink'
  · intro p q hlink'
    have hchecks : job'.checks = job.checks := by
      rw [hjob]
      rfl
    rw [hproc, hchecks]
    by_cases hpq : p = src ∧ q = dst
    · obtain ⟨rfl, rfl⟩ := hpq
      have hfly := launch_inFlight_self (job.set p sent.1 []) p q sent.2
      rw [← hjob] at hfly
      rw [hself, hfly]
      refine (ho.channel p q hlink').send (ho.arrived p q hlink').length_le ?_
      rw [hsent]
    · have hfly := launch_inFlight_of_ne hpq (job.set src sent.1 []) sent.2
      rw [← hjob] at hfly
      rw [hother p q hpq, hfly]
      exact ho.channel p q hlink'

theorem step (ho : Orderly G job h) {a : Action P M} (hpaced : Paced G job a)
    (hstep : job.step G a = some job') : ∃ h', Orderly G job' h' := by
  have ha := ho.accounted.step hstep
  cases step_moved hstep with
  | send hlink hsent => exact ⟨h, ho.send hlink hpaced.legal hsent rfl ha⟩
  | deliver hflying hs => exact ho.deliver hflying hs ha (hpaced.inReach _ _ rfl hflying)
  | check hchecks hs => exact ho.check hchecks hs ha
  | start hr => exact ⟨_, ho.start hpaced.legal.1 hpaced.legal.2 hr rfl ha⟩
  | cancel => exact ⟨_, ho.cancel rfl ha⟩

theorem init (G : Group P) (contextId : UInt16) (noAnySource : Bool) :
    Orderly G (init G contextId false noAnySource : Job P M) fun _ => History.init where
  accounted := .init G contextId false noAnySource
  numProcs _ := rfl
  noOvertake _ := rfl
  sendSequence _ _ _ := rfl
  legal _ _ _ h := by cases h
  checked _ _ h := absurd rfl h
  receiving p := Receiving.init (G.size_pos p)
  silent _ _ _ := rfl
  arrived _ _ _ := List.prefix_refl _
  channel _ _ _ := Channel.init 0

end Orderly

variable {G : Group P} {job job' : Job P M} {contextId : UInt16} {noAnySource : Bool}

/-- Every paced run is orderly. -/
theorem Run.orderly (h : Run G (Paced G) (init G contextId false noAnySource) job) :
    ∃ hist, Orderly G job hist := by
  induction h with
  | refl => exact ⟨_, .init G contextId noAnySource⟩
  | tail _ hstep ih =>
      obtain ⟨hist, ho⟩ := ih
      obtain ⟨a, hpaced, hstep⟩ := hstep
      exact ho.step hpaced hstep

/-! ## Short channels -/

theorem step_sent_grows {a : Action P M} (h : job.step G a = some job') (src dst : P) :
    job.sent src dst <+: job'.sent src dst := by
  cases step_moved h with
  | @send p q _ _ _ sent =>
      by_cases hpq : src = p ∧ dst = q
      · obtain ⟨rfl, rfl⟩ := hpq
        rw [launch_sent_self]
        exact List.prefix_append _ _
      · rw [launch_sent_of_ne hpq]
        exact List.prefix_refl _
  | deliver => exact List.prefix_refl _
  | check => exact List.prefix_refl _
  | start => exact List.prefix_refl _
  | cancel => exact List.prefix_refl _

theorem Orderly.inReach_of_short {h : Histories P M} {n : Nat} (ho : Orderly G job h)
    (hshort : ∀ src dst, (job.sent src dst).length ≤ 65535) {packet : Packet P M}
    (hpacket : job.flying[n]? = some packet) : InReach G job packet := by
  obtain ⟨src, dst, frag⟩ := packet
  obtain ⟨hlink, -⟩ := ho.linked hpacket
  have hc := ho.channel src dst hlink
  have hn := ho.accounted.numbered src dst
  have hlen := hshort src dst
  have hlt : ∀ f ∈ job.pending G src dst, f.segments.1 < 65535 := by
    intro f hf
    have hget := List.getElem?_eq_some_iff.mp (hn.getElem? (hc.mem_sent hf))
    exact Nat.lt_of_lt_of_le hget.1 hlen
  constructor
  · intro g hg
    have hfrag := hlt frag (mem_pending hpacket)
    simp only
    omega
  · have hexpected := hc.expected
    have hring : ∀ n ∈ ((job.comms dst).procs (G.rank src)).fragsCantMatch,
        ¬n.seq < ((job.comms dst).procs (G.rank src)).expectedSequence.toNat := by
      intro n hnode
      have hf : n.frag ∈ job.pending G src dst :=
        List.mem_append_right _ (mem_frags hnode)
      have hle := hc.le_number hn hf
      have hbound := hlt _ hf
      change ((job.comms dst).procs (G.rank src)).expectedSequence = _ at hexpected
      rw [Run.seq, hc.wired _ (hc.mem_sent hf), hexpected, Sequence.wire_toNat,
        Sequence.wire_toNat]
      omega
    simp only
    cases hhead : ((job.comms dst).procs (G.rank src)).fragsCantMatch with
    | nil => exact id
    | cons head tail =>
        rintro ⟨hroll, -⟩
        exact hring head (by rw [hhead]; exact List.mem_cons_self) hroll

/-- A run in which every channel carries fewer than `2 ^ 16` messages is paced. -/
theorem Run.paced_of_short (hrun : Run G Legal (init G contextId false noAnySource) job)
    (hshort : ∀ src dst, (job.sent src dst).length ≤ 65535) :
    Run G (Paced G) (init G contextId false noAnySource) job := by
  induction hrun with
  | refl => exact .refl
  | @tail job job' _ hstep ih =>
      obtain ⟨a, hlegal, hstep⟩ := hstep
      have hshort' : ∀ src dst, (job.sent src dst).length ≤ 65535 := fun src dst =>
        Nat.le_trans (step_sent_grows hstep src dst).length_le (hshort src dst)
      have hrun := ih hshort'
      obtain ⟨h, ho⟩ := hrun.orderly
      refine hrun.tail ⟨a, ⟨hlegal, ?_⟩, hstep⟩
      intro n packet _ hpacket
      exact ho.inReach_of_short hshort' hpacket

theorem step_sent_length {a : Action P M} (h : job.step G a = some job') (src dst : P) :
    (job'.sent src dst).length ≤ (job.sent src dst).length + 1 := by
  cases step_moved h with
  | @send p q _ _ _ sent =>
      by_cases hpq : src = p ∧ dst = q
      · obtain ⟨rfl, rfl⟩ := hpq
        rw [launch_sent_self, List.length_append]
        exact Nat.le_refl _
      · rw [launch_sent_of_ne hpq]
        exact Nat.le_succ _
  | deliver => exact Nat.le_succ _
  | check => exact Nat.le_succ _
  | start => exact Nat.le_succ _
  | cancel => exact Nat.le_succ _

theorem exec_sent_length {ok : Job P M → Action P M → Prop}
    [∀ job a, Decidable (ok job a)] {as : List (Action P M)}
    (h : exec G ok job as = some job') (src dst : P) :
    (job'.sent src dst).length ≤ (job.sent src dst).length + as.length := by
  induction as generalizing job with
  | nil =>
      cases h
      exact Nat.le_refl _
  | cons a as ih =>
      rw [exec] at h
      split at h
      · obtain ⟨next, hstep, hrest⟩ := Option.bind_eq_some_iff.mp h
        have hone := step_sent_length hstep src dst
        have hmore := ih hrest
        rw [List.length_cons]
        omega
      · cases h

theorem paced_of_exec {as : List (Action P M)}
    (h : exec G Legal (init G contextId false noAnySource) as = some job)
    (hshort : as.length ≤ 65535) :
    Run G (Paced G) (init G contextId false noAnySource) job := by
  refine (run_of_exec h).paced_of_short fun src dst => ?_
  have hlen := exec_sent_length h src dst
  have hzero : ((init G contextId false noAnySource : Job P M).sent src dst).length = 0 := rfl
  omega

end Job

end ProgPara.Ob1
