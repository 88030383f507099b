import ProgPara.Matching.Schedule
import ProgPara.Ob1.Proofs.Runs

/-!
# What MPI promises about matching

Messages of one channel do not overtake each other on their way to a request
that accepts them, requests do not overtake each other on the way to a message,
and what is left unmatched could not be matched.
-/

namespace ProgPara.Ob1

open Matching

variable {P M : Type*} {comm : Comm M} {b : Board RecvRequest (RecvFrag M) Nat}

theorem Represents.posted_iff (hr : Represents comm b) {req : RecvRequest} :
    comm.Posted req ↔ req ∈ b.posted := by
  unfold Comm.Posted
  simp only [hr.wild, hr.specific, List.mem_filter, isWild, isSpecific, beq_iff_eq]
  constructor
  · rintro (h | ⟨_, h⟩)
    · exact h.1
    · exact h.1
  · intro h
    cases hpeer : req.reqPeer with
    | none => exact .inl ⟨h, rfl⟩
    | some p => exact .inr ⟨p, h, rfl⟩

theorem Receiving.split {asked cancelled : List RecvRequest} {log before after : List (Match M)}
    {h : History RecvRequest (RecvFrag M) Nat} (hr : Receiving comm asked cancelled log h)
    {m : Match M} (hlog : log = before ++ m :: after) :
    ∃ l₁ x l₂, h.log = l₁ ++ x :: l₂ ∧ before = l₁.map toMatch ∧ m = toMatch x ∧
      after = l₂.map toMatch := by
  rw [hr.log_eq, List.map_eq_append_iff] at hlog
  obtain ⟨l₁, rest, hsplit, hbefore, hrest⟩ := hlog
  obtain ⟨x, l₂, hcons, hx, hafter⟩ := List.map_eq_cons_iff.mp hrest
  exact ⟨l₁, x, l₂, by rw [hsplit, hcons], hbefore.symm, hx.symm, hafter.symm⟩

namespace Job

variable [DecidableEq P] {G : Group P} {p src : P} {contextId : UInt16} {noAnySource : Bool}
  {job : Job P M} {before after : List (Match (Nat × M))} {m : Match (Nat × M)}
  {h : Histories P M}

theorem Orderly.sender (ho : Orderly G job h) {x : Pair RecvRequest (Fragment M) Nat}
    (hx : x ∈ (h p).log) : ∃ src, G.reaches src p ∧ G.rank src = x.src ∧
      x.msg ∈ job.sent src p ∧ x.msg.hdrSrc = x.src := by
  have harrived := (ho.receiving p).sound.log_arrived x hx
  have hsender : ∃ src, G.reaches src p ∧ G.rank src = x.src := by
    by_contra hnone
    have hnil := ho.silent p x.src fun src hlink hsrc => hnone ⟨src, hlink, hsrc⟩
    rw [hnil] at harrived
    cases harrived
  obtain ⟨src, hlink, hsrc⟩ := hsender
  rw [← hsrc] at harrived
  have hsent := (ho.arrived src p hlink).subset harrived
  have hn := ho.accounted.numbered src p
  exact ⟨src, hlink, hsrc, hsent, (hn _ _ (hn.getElem? hsent)).2.trans hsrc⟩

theorem Orderly.src_eq (ho : Orderly G job h) {x : Pair RecvRequest (Fragment M) Nat}
    (hx : x ∈ (h p).log) : x.src = x.msg.hdrSrc := by
  obtain ⟨-, -, -, -, hsrc⟩ := ho.sender hx
  exact hsrc.symm

theorem Orderly.rank_eq (ho : Orderly G job h) {x : Pair RecvRequest (Fragment M) Nat}
    (hx : x ∈ (h p).log) (hsent : x.msg ∈ job.sent src p) : x.src = G.rank src := by
  have hn := ho.accounted.numbered src p
  rw [ho.src_eq hx, (hn _ _ (hn.getElem? hsent)).2]

/-- When the channels to a process are quiet, everything sent there was handed on. -/
theorem Orderly.quiet (ho : Orderly G job h) (hlink : G.reaches src p)
    (hflying : job.inFlight src p = []) (hchecks : job.checks p src = 0) :
    (h p).arrived (G.rank src) = job.sent src p ∧
      frags ((job.comms p).procs (G.rank src)).fragsCantMatch = [] := by
  have hle := (ho.arrived src p hlink).length_le
  obtain ⟨hlen, hring⟩ := (ho.channel src p hlink).settled (ho.accounted.numbered src p)
    hflying hchecks hle
  exact ⟨(ho.arrived src p hlink).eq_of_length hlen, hring⟩

/-- A message that a request took comes after the older ones the request would
have taken. -/
theorem Orderly.taken_before (ho : Orderly G job h) (hlog : job.log p = before ++ m :: after)
    (htakes : m.req.takes) {g : Fragment M} (hg : Precedes (job.sent src p) g m.frag)
    (htag : m.req.tagMatches g.hdrTag) : ∃ m' ∈ before, m'.req.takes ∧ m'.frag = g := by
  have hs := (ho.receiving p).sound
  obtain ⟨l₁, x, l₂, hsplit, hbefore, hm, -⟩ := (ho.receiving p).split hlog
  have hx : x ∈ (h p).log := by simp [hsplit]
  subst hm hbefore
  have hsent : x.msg ∈ job.sent src p := hg.right_mem
  have hsrc := ho.rank_eq hx hsent
  have hlink := ho.accounted.linked src p (List.ne_nil_of_mem hsent)
  have hover : History.Overtakes rules (h p) x g := by
    refine ⟨htakes, ?_, ?_⟩
    · have hnodup := (ho.accounted.numbered src p).nodup
      have harrived := hs.log_arrived x hx
      rw [hsrc] at harrived ⊢
      exact hg.of_initial hnodup (ho.arrived src p hlink) harrived
    · have hadm := hs.log_admits x hx
      simp only [Rules.admits, rules, Bool.and_eq_true] at hadm ⊢
      exact ⟨hadm.1, htag⟩
  obtain ⟨y, hy, hytakes, -, hymsg⟩ := hs.not_overtaken hsplit hover
  exact ⟨toMatch y, List.mem_map_of_mem hy, hytakes, hymsg⟩

theorem Orderly.reqs_nodup (ho : Orderly G job h) (p : P) :
    ((job.log p).map (·.req)).Nodup ∧ ∀ m ∈ job.log p, ¬(job.comms p).Posted m.req := by
  have hr := ho.receiving p
  have honce := hr.sound.served_once
  have hreqs : (job.log p).map (·.req) = (h p).log.map (·.req) := by
    rw [hr.log_eq, List.map_map]
    rfl
  rw [List.nodup_append] at honce
  refine ⟨hreqs ▸ honce.1, ?_⟩
  intro m hm hposted
  have hreq : m.req ∈ (h p).log.map (·.req) := hreqs ▸ List.mem_map_of_mem hm
  exact honce.2.2 m.req hreq m.req (hr.represents.posted_iff.mp hposted) rfl

theorem Orderly.mem_log (ho : Orderly G job h) (hm : m ∈ job.log p) :
    m.req ∈ job.asked p ∧ m.req.accepts m.frag.hdrSrc m.frag.hdrTag ∧
      ∃ src, G.reaches src p ∧ G.rank src = m.frag.hdrSrc ∧ m.frag ∈ job.sent src p := by
  have hr := ho.receiving p
  rw [hr.log_eq] at hm
  obtain ⟨x, hx, rfl⟩ := List.mem_map.mp hm
  refine ⟨?_, ?_, ?_⟩
  · rw [hr.asked_eq]
    exact hr.sound.log_asked x hx
  · have hadm := hr.sound.log_admits x hx
    rw [ho.src_eq hx] at hadm
    exact hadm
  · obtain ⟨src, hlink, hsrc, hsent, hhdr⟩ := ho.sender hx
    exact ⟨src, hlink, hsrc.trans hhdr.symm, hsent⟩

theorem Orderly.answered (ho : Orderly G job h) {req : RecvRequest}
    (hreq : req ∈ job.asked p) (hwaits : req.waits) (hcancelled : req ∉ job.cancelled p) :
    (∃ m ∈ job.log p, m.req = req) ∨ (job.comms p).Posted req := by
  have hr := ho.receiving p
  rw [hr.asked_eq] at hreq
  rcases hr.reachable.answered req hreq hwaits with hlog | hposted | hcancelled'
  · obtain ⟨x, hx, rfl⟩ := List.mem_map.mp hlog
    refine .inl ⟨toMatch x, ?_, rfl⟩
    rw [hr.log_eq]
    exact List.mem_map_of_mem hx
  · exact .inr (hr.represents.posted_iff.mpr hposted)
  · exact absurd (hr.cancelled_eq ▸ hcancelled') hcancelled

theorem Orderly.taken_initial (ho : Orderly G job h) (hlink : G.reaches src p)
    (htags : ∀ req ∈ job.asked p, ∀ frag ∈ job.sent src p, req.tagMatches frag.hdrTag) :
    job.taken G src p <+: job.sent src p := by
  have hnodup := (ho.accounted.numbered src p).nodup
  have hplaces := ho.accounted.conserved src p hlink
  rw [← List.append_assoc] at hplaces
  refine initial_of_precedes hnodup ?_ ?_ ?_
  · exact (List.nodup_append.mp (hplaces.nodup_iff.mp hnodup)).2.1
  · exact fun f hf => hplaces.mem_iff.mpr (List.mem_append_right _ hf)
  · intro a f b hsplit g hg
    rw [taken, takenFrom] at hsplit
    obtain ⟨l₁, l₂, hfilter, ha, hfb⟩ := List.map_eq_append_iff.mp hsplit
    obtain ⟨m, l₃, rfl, rfl, hb⟩ := List.map_eq_cons_iff.mp hfb
    obtain ⟨before, rest, hlog, hbefore, hrest⟩ := List.filter_eq_append_iff.mp hfilter
    obtain ⟨skip, after, rfl, hskip, hm, -⟩ := List.filter_eq_cons_iff.mp hrest
    simp only [Bool.and_eq_true, beq_iff_eq] at hm
    have hlog' : job.log p = (before ++ skip) ++ m :: after := by
      rw [hlog, List.append_assoc]
    have hreq := (ho.mem_log (hlog' ▸ List.mem_append_right _ List.mem_cons_self)).1
    obtain ⟨m', hm', htakes', rfl⟩ :=
      ho.taken_before hlog' hm.1 hg (htags m.req hreq g hg.left_mem)
    have hsrc : m'.frag.hdrSrc = G.rank src := by
      have hn := ho.accounted.numbered src p
      exact (hn _ _ (hn.getElem? hg.left_mem)).2
    rw [← ha, ← hbefore]
    refine List.mem_map_of_mem ?_
    rcases List.mem_append.mp hm' with hm' | hm'
    · refine List.mem_filter.mpr ⟨hm', ?_⟩
      simp [htakes', hsrc]
    · have hno := hskip m' hm'
      simp [htakes', hsrc] at hno

theorem crossing_isSome : (exec pair Legal (init pair 0 false false) crossing).isSome := by
  decide +kernel

def crossed : Job (Fin 2) Unit :=
  (exec pair Legal (init pair 0 false false) crossing).get crossing_isSome

theorem crossed_exec : exec pair Legal (init pair 0 false false) crossing = some crossed :=
  (Option.some_get crossing_isSome).symm

theorem crossed_paced : Run pair (Paced pair) (init pair 0 false false) crossed :=
  paced_of_exec crossed_exec (by decide)

theorem Orderly.taken_or_refused (ho : Orderly G job h)
    (hflying : job.inFlight src p = []) (hchecks : job.checks p src = 0)
    {frag : Fragment M} (hfrag : frag ∈ job.sent src p) :
    frag ∈ job.taken G src p ∨
      ∀ req, (job.comms p).Posted req → ¬req.accepts (G.rank src) frag.hdrTag := by
  have hr := ho.receiving p
  have hlink := ho.accounted.linked src p (List.ne_nil_of_mem hfrag)
  obtain ⟨-, hring⟩ := ho.quiet hlink hflying hchecks
  have hplace := (ho.accounted.conserved src p hlink).subset hfrag
  rw [hflying, List.nil_append, held, CommProc.held, hring, List.nil_append] at hplace
  rcases List.mem_append.mp hplace with hunexpected | htaken
  · refine .inr fun req hposted => ?_
    rw [hr.represents.unexpected] at hunexpected
    have hmem := hr.represents.posted_iff.mp hposted
    exact hr.sound.apart req hmem (G.rank src) frag hunexpected
  · exact .inl htaken

/-- Two runs in which the same messages were sent to a process and the same requests
were started there, each a receive that names its source, have the same matches
once the channels to that process are quiet, however they went. -/
theorem matches_of_named {job₁ job₂ : Job P M}
    (hrun₁ : Run G (Paced G) (init G contextId false noAnySource) job₁)
    (hrun₂ : Run G (Paced G) (init G contextId false noAnySource) job₂)
    (hsent : ∀ src, G.reaches src p → job₁.sent src p = job₂.sent src p)
    (hasked : job₁.asked p = job₂.asked p)
    (hnamed : ∀ req ∈ job₁.asked p, req.waits ∧ req.reqPeer ≠ none)
    (hcancelled₁ : job₁.cancelled p = []) (hcancelled₂ : job₂.cancelled p = [])
    (hquiet₁ : ∀ src, G.reaches src p → job₁.inFlight src p = [] ∧ job₁.checks p src = 0)
    (hquiet₂ : ∀ src, G.reaches src p → job₂.inFlight src p = [] ∧ job₂.checks p src = 0) :
    (job₁.log p).Perm (job₂.log p) ∧
      (∀ src, G.reaches src p →
        ((job₁.comms p).procs (G.rank src)).unexpectedFrags =
            ((job₂.comms p).procs (G.rank src)).unexpectedFrags ∧
          frags ((job₁.comms p).procs (G.rank src)).fragsCantMatch = [] ∧
          frags ((job₂.comms p).procs (G.rank src)).fragsCantMatch = []) ∧
      ∀ req, (job₁.comms p).Posted req ↔ (job₂.comms p).Posted req := by
  obtain ⟨h₁, ho₁⟩ := hrun₁.orderly
  obtain ⟨h₂, ho₂⟩ := hrun₂.orderly
  have hq₁ : ∀ src, G.reaches src p → _ := fun src hlink =>
    ho₁.quiet hlink (hquiet₁ src hlink).1 (hquiet₁ src hlink).2
  have hq₂ : ∀ src, G.reaches src p → _ := fun src hlink =>
    ho₂.quiet hlink (hquiet₂ src hlink).1 (hquiet₂ src hlink).2
  have harrived : (h₁ p).arrived = (h₂ p).arrived := by
    funext rank
    by_cases hsender : ∃ src, G.reaches src p ∧ G.rank src = rank
    · obtain ⟨src, hlink, rfl⟩ := hsender
      rw [(hq₁ src hlink).1, (hq₂ src hlink).1, hsent src hlink]
    · have hnone : ∀ src, G.reaches src p → G.rank src ≠ rank :=
        fun src hlink hsrc => hsender ⟨src, hlink, hsrc⟩
      rw [ho₁.silent p rank hnone, ho₂.silent p rank hnone]
  have hr₁ := ho₁.receiving p
  have hr₂ := ho₂.receiving p
  obtain ⟨hboard, hlog⟩ := History.eq_of_named hr₁.reachable hr₂.reachable
    (hr₁.cancelled_eq ▸ hcancelled₁) (hr₂.cancelled_eq ▸ hcancelled₂) harrived
    (by rw [← hr₁.asked_eq, ← hr₂.asked_eq, hasked])
    (fun req hreq => by
      obtain ⟨hwaits, hpeer⟩ := hnamed req (hr₁.asked_eq ▸ hreq)
      exact ⟨hwaits, Option.ne_none_iff_exists'.mp hpeer⟩)
  refine ⟨?_, ?_, ?_⟩
  · rw [hr₁.log_eq, hr₂.log_eq]
    exact hlog.map toMatch
  · intro src hlink
    refine ⟨?_, (hq₁ src hlink).2, (hq₂ src hlink).2⟩
    rw [hr₁.represents.unexpected, hr₂.represents.unexpected, hboard]
  · intro req
    rw [hr₁.represents.posted_iff, hr₂.represents.posted_iff, hboard]

def straight : List (Action (Fin 2) Unit) :=
  [.start receiver ⟨.recv, some 0, 5, 0⟩, .start receiver ⟨.recv, some 0, 5, 0⟩,
    .send sender receiver .match_ 5 (), .deliver 0, .send sender receiver .match_ 5 (),
    .deliver 0, .check receiver sender, .check receiver sender]

theorem straight_isSome : (exec pair Legal (init pair 0 false false) straight).isSome := by
  decide +kernel

def straightened : Job (Fin 2) Unit :=
  (exec pair Legal (init pair 0 false false) straight).get straight_isSome

theorem straightened_paced :
    Run pair (Paced pair) (init pair 0 false false) straightened :=
  paced_of_exec (Option.some_get straight_isSome).symm (by decide)

theorem matches_of_named_straight : (crossed.log 1).Perm (straightened.log 1) :=
  (matches_of_named crossed_paced straightened_paced (by decide +kernel)
    (by decide +kernel) (by decide +kernel) (by decide +kernel) (by decide +kernel)
    (by decide +kernel) (by decide +kernel)).1

end Job

end ProgPara.Ob1
