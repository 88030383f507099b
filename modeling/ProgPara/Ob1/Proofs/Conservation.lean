import Mathlib.Data.List.Perm.Basic
import ProgPara.Matching.Interleaving
import ProgPara.Ob1.Proofs.OrderedList
import ProgPara.Ob1.Proofs.Sections

/-!
# Nothing is lost and nothing is matched twice

Whatever the order in which fragments arrive, whatever the threads and the
requests do, and even where the sequence numbers go wrong, each message sent is
in one place: in flight, kept by its receiver, or taken by a request.
-/

namespace ProgPara.Ob1

open Function

variable {M : Type*} {comm comm' : Comm M} {rank p : Nat} {frag : RecvFrag M}

/-- The requests posted wait for a fragment, and the fragments kept for a rank
are from it. -/
structure Tidy (comm : Comm M) : Prop where
  waits : ∀ req, comm.Posted req → req.waits
  source : ∀ rank, ∀ frag ∈ (comm.procs rank).held, frag.hdrSrc = rank

/-- What a step does with the fragments: `new` arrives, and whatever it does not
keep is taken. -/
structure Conserves (comm : Comm M) (new : List (RecvFrag M)) (comm' : Comm M)
    (done : List (Match M)) : Prop where
  posted : ∀ req, comm'.Posted req → comm.Posted req ∨ req.waits
  kept : ∀ p, ((comm'.procs p).held ++ takenFrom p done).Perm
    ((comm.procs p).held ++ new.filter (·.hdrSrc == p))

theorem takenFrom_append (p : Nat) (l₁ l₂ : List (Match M)) :
    takenFrom p (l₁ ++ l₂) = takenFrom p l₁ ++ takenFrom p l₂ := by
  simp [takenFrom]

theorem Comm.Posted.of_setProc {proc : CommProc M} {req : RecvRequest}
    (h : (comm.setProc rank proc).Posted req)
    (hsub : ∀ r ∈ proc.specificReceives, r ∈ (comm.procs rank).specificReceives) :
    comm.Posted req := by
  refine h.imp id ?_
  rintro ⟨q, hq⟩
  by_cases hqr : q = rank
  · subst hqr
    simp only [Comm.setProc, update_self] at hq
    exact ⟨q, hsub req hq⟩
  · simp only [Comm.setProc, update_of_ne hqr] at hq
    exact ⟨q, hq⟩

theorem takenFrom_of_takes {req : RecvRequest} (h : req.takes) (p : Nat)
    (frag : RecvFrag M) :
    takenFrom p [⟨req, frag⟩] = [frag].filter (·.hdrSrc == p) := by
  by_cases hp : frag.hdrSrc = p
  · simp [takenFrom, h, hp]
  · simp [takenFrom, hp]

theorem takenFrom_of_not_takes {req : RecvRequest} (h : ¬req.takes) (p : Nat)
    (frag : RecvFrag M) : takenFrom p [⟨req, frag⟩] = [] := by
  simp [takenFrom, h]

namespace Conserves

variable {new new' : List (RecvFrag M)} {done done' : List (Match M)} {comm'' : Comm M}

theorem refl (comm : Comm M) : Conserves comm [] comm [] where
  posted _ := .inl
  kept _ := .refl _

theorem trans (h : Conserves comm new comm' done)
    (h' : Conserves comm' new' comm'' done') :
    Conserves comm (new ++ new') comm'' (done ++ done') where
  posted req hreq := by
    rcases h'.posted req hreq with hreq | hwaits
    · exact h.posted req hreq
    · exact .inr hwaits
  kept p := by
    rw [takenFrom_append, List.filter_append, ← List.append_assoc]
    calc ((comm''.procs p).held ++ takenFrom p done ++ takenFrom p done').Perm
          ((comm''.procs p).held ++ takenFrom p done' ++ takenFrom p done) := by
            rw [List.append_assoc, List.append_assoc]
            exact List.perm_append_comm.append_left _
      _ |>.Perm ((comm'.procs p).held ++ new'.filter (·.hdrSrc == p) ++ takenFrom p done) :=
            (h'.kept p).append_right _
      _ |>.Perm ((comm'.procs p).held ++ takenFrom p done ++ new'.filter (·.hdrSrc == p)) := by
            rw [List.append_assoc, List.append_assoc]
            exact List.perm_append_comm.append_left _
      _ |>.Perm ((comm.procs p).held ++ new.filter (·.hdrSrc == p) ++
            new'.filter (·.hdrSrc == p)) := (h.kept p).append_right _
      _ = _ := List.append_assoc ..

theorem tidy (h : Conserves comm new comm' done) (ht : Tidy comm) : Tidy comm' where
  waits req hreq := by
    rcases h.posted req hreq with hreq | hwaits
    · exact ht.waits req hreq
    · exact hwaits
  source p frag hfrag := by
    have hmem := (h.kept p).subset (List.mem_append_left _ hfrag)
    rcases List.mem_append.mp hmem with hmem | hmem
    · exact ht.source p frag hmem
    · simpa using (List.mem_filter.mp hmem).2

/-- A fragment taken out of what was kept counts as one that arrives. -/
theorem of_kept (h : Conserves comm' [frag] comm'' done)
    (hposted : ∀ req, comm'.Posted req → comm.Posted req)
    (hheld : ∀ p, ((comm'.procs p).held ++ [frag].filter (·.hdrSrc == p)).Perm
      (comm.procs p).held) : Conserves comm [] comm'' done where
  posted req hreq := (h.posted req hreq).imp (hposted req) id
  kept p := by
    rw [List.filter_nil, List.append_nil]
    exact (h.kept p).trans (hheld p)

theorem setProc {proc : CommProc M}
    (hposted : ∀ req ∈ proc.specificReceives, req ∈ (comm.procs rank).specificReceives)
    (hheld : proc.held.Perm ((comm.procs rank).held ++ new))
    (hnew : ∀ frag ∈ new, frag.hdrSrc = rank) :
    Conserves comm new (comm.setProc rank proc) [] where
  posted req hreq := .inl (hreq.of_setProc hposted)
  kept q := by
    simp only [takenFrom, List.filter_nil, List.map_nil, List.append_nil]
    by_cases hqr : q = rank
    · subst hqr
      have hall : new.filter (·.hdrSrc == q) = new := by simpa using hnew
      simpa [Comm.setProc, hall] using hheld
    · have hnone : new.filter (·.hdrSrc == q) = [] := by
        simp only [List.filter_eq_nil_iff, beq_iff_eq]
        exact fun f hf => hnew f hf ▸ Ne.symm hqr
      simp [Comm.setProc, update_of_ne hqr, hnone]

end Conserves

/-! ## Fragments that arrive -/

theorem searchPosted_posted {m : RecvRequest} {w s : List RecvRequest}
    (h : searchPosted comm rank frag = some (m, w, s)) :
    comm.Posted m ∧ ∀ req,
      ({ comm with wildReceives := w }.setProc rank
        { comm.procs rank with specificReceives := s }).Posted req → comm.Posted req := by
  have hperm := searchPosted_perm h
  have hold : ∀ req ∈ m :: (w ++ s), comm.Posted req := by
    intro req hreq
    rcases List.mem_append.mp (hperm.subset hreq) with hw | hs
    · exact .inl hw
    · exact .inr ⟨rank, hs⟩
  refine ⟨hold m List.mem_cons_self, ?_⟩
  rintro req (hw | ⟨q, hq⟩)
  · exact hold req (List.mem_cons_of_mem _ (List.mem_append_left _ hw))
  · by_cases hqr : q = rank
    · subst hqr
      simp only [Comm.setProc, update_self] at hq
      exact hold req (List.mem_cons_of_mem _ (List.mem_append_right _ hq))
    · simp only [Comm.setProc, update_of_ne hqr] at hq
      exact .inr ⟨q, hq⟩

theorem held_setReceives (comm : Comm M) (rank q : Nat) (w s : List RecvRequest) :
    (({ comm with wildReceives := w }.setProc rank
      { comm.procs rank with specificReceives := s }).procs q).held =
      (comm.procs q).held := by
  by_cases hq : q = rank
  · subst hq
    simp [Comm.setProc, CommProc.held]
  · simp [Comm.setProc, update_of_ne hq]

theorem matchOne_conserves (hwaits : ∀ req, comm.Posted req → req.waits)
    (hsrc : frag.hdrSrc = rank) :
    Conserves comm [frag] (matchOne comm rank frag).1 (matchOne comm rank frag).2 := by
  fun_induction matchOne comm rank frag with
  | case1 comm =>
      refine .setProc (fun _ => id) ?_ (by simpa using hsrc)
      simp [CommProc.held]
  | case2 comm req wild specific hsearch comm' hprobe after done hrec ih =>
      obtain ⟨-, hsub⟩ := searchPosted_posted hsearch
      have hrest := ih fun r hr => hwaits r (hsub r hr)
      rw [hrec] at hrest
      refine ⟨fun r hr => (hrest.posted r hr).imp (hsub r) id, fun q => ?_⟩
      have hkept := hrest.kept q
      have hprobe' : ¬req.takes := by simp [RecvRequest.takes, hprobe]
      rw [held_setReceives] at hkept
      rw [← List.singleton_append, takenFrom_append, takenFrom_of_not_takes hprobe',
        List.nil_append]
      exact hkept
  | case3 comm req wild specific hsearch comm' hprobe =>
      obtain ⟨hreq, hsub⟩ := searchPosted_posted hsearch
      have htakes : req.takes := by
        have hw := hwaits req hreq
        simp only [RecvRequest.waits, Bool.and_eq_true, bne_iff_ne, ne_eq] at hw
        simp only [RecvRequest.takes, Bool.and_eq_true, bne_iff_ne, ne_eq]
        exact ⟨hw.1, hprobe⟩
      refine ⟨fun r hr => .inl (hsub r hr), fun q => ?_⟩
      rw [held_setReceives, takenFrom_of_takes htakes]

theorem matchThisFrag_conserves (hwaits : ∀ req, comm.Posted req → req.waits)
    (hsrc : frag.hdrSrc = rank) :
    Conserves comm [frag] (matchThisFrag comm rank frag).1
      (matchThisFrag comm rank frag).2 := by
  have hset : Conserves comm []
      (comm.setProc rank
        { comm.procs rank with
          expectedSequence := (comm.procs rank).expectedSequence + 1 }) [] :=
    .setProc (fun _ => id) (by simp [CommProc.held]) (by simp)
  have hwaits' := fun req hreq => (hset.posted req hreq).elim (hwaits req) id
  exact hset.trans (matchOne_conserves hwaits' hsrc)

theorem Entered.conserves {s : Locked M} (h : Entered comm frag s)
    (hwaits : ∀ req, comm.Posted req → req.waits) :
    Conserves comm [frag] s.comm s.matches_ := by
  cases h with
  | queued =>
      refine .setProc (fun _ => id) ?_ (by simp)
      have happend := appendFragToOrderedList_perm
        (comm.procs frag.hdrSrc).fragsCantMatch frag
        (comm.procs frag.hdrSrc).expectedSequence
      refine (happend.append_right _).trans ?_
      exact (List.perm_append_singleton frag _).symm
  | overtakes => exact matchOne_conserves hwaits rfl
  | inTurn => exact matchThisFrag_conserves hwaits rfl

theorem held_without {proc : CommProc M} (hsrc : frag.hdrSrc = rank)
    (hheld : (proc.held ++ [frag]).Perm (comm.procs rank).held) (q : Nat) :
    (((comm.setProc rank proc).procs q).held ++ [frag].filter (·.hdrSrc == q)).Perm
      (comm.procs q).held := by
  by_cases hq : q = rank
  · subst hq
    simpa [Comm.setProc, hsrc] using hheld
  · simp [Comm.setProc, update_of_ne hq, hsrc, Ne.symm hq]

theorem Resumed.conserves {s : Locked M} (h : Resumed comm rank s) (ht : Tidy comm) :
    Conserves comm [] s.comm s.matches_ := by
  cases h with
  | nothing => exact .refl comm
  | @next frag comm' htake =>
      obtain ⟨⟨f, queue⟩, hcheck, heq⟩ := Option.map_eq_some_iff.mp htake
      cases heq
      have hfrags := checkCantmatch_frags hcheck
      have hsrc : frag.hdrSrc = rank := by
        refine ht.source rank frag (List.mem_append_left _ ?_)
        rw [hfrags]
        exact List.mem_cons_self
      have hposted : ∀ req, (comm.setProc rank
          { comm.procs rank with fragsCantMatch := queue }).Posted req →
          comm.Posted req := fun req hreq => hreq.of_setProc fun _ => id
      have hmatch := matchThisFrag_conserves
        (fun req hreq => ht.waits req (hposted req hreq)) hsrc
      refine hmatch.of_kept hposted (held_without hsrc ?_)
      simp only [CommProc.held, hfrags]
      exact List.perm_append_singleton frag _

/-! ## Requests -/

theorem Comm.Posted.of_append {req r : RecvRequest}
    (h : (appendRecvReqToQueue comm req).Posted r) : comm.Posted r ∨ r = req := by
  unfold appendRecvReqToQueue at h
  split at h
  · rcases h with h | h
    · rcases List.mem_append.mp h with h | h
      · exact .inl (.inl h)
      · exact .inr (List.mem_singleton.mp h)
    · exact .inl (.inr h)
  · rename_i rank _
    rcases h with h | ⟨q, hq⟩
    · exact .inl (.inl h)
    · by_cases hqr : q = rank
      · subst hqr
        simp only [Comm.setProc, update_self] at hq
        rcases List.mem_append.mp hq with h | h
        · exact .inl (.inr ⟨q, h⟩)
        · exact .inr (List.mem_singleton.mp h)
      · simp only [Comm.setProc, update_of_ne hqr] at hq
        exact .inl (.inr ⟨q, hq⟩)

theorem held_appendRecvReqToQueue (comm : Comm M) (req : RecvRequest) (q : Nat) :
    ((appendRecvReqToQueue comm req).procs q).held = (comm.procs q).held := by
  unfold appendRecvReqToQueue
  split
  · rfl
  · rename_i rank _
    by_cases hq : q = rank
    · subst hq
      simp [Comm.setProc, CommProc.held]
    · simp [Comm.setProc, update_of_ne hq]

theorem noteProbed_conserves (comm : Comm M) (req : RecvRequest) (rank : Nat) :
    Conserves comm [] (noteProbed comm req rank) [] := by
  unfold noteProbed
  split
  · exact ⟨fun _ => .inl, fun _ => .refl _⟩
  · exact .refl comm

theorem Looked.conserves {req : RecvRequest} {r : Comm M × List (Match M)}
    (h : Looked comm req r) (ht : Tidy comm) : Conserves comm [] r.1 r.2 := by
  cases h with
  | leaves => exact .refl comm
  | posts hwaits =>
      refine ⟨fun r hr => ?_, fun p => ?_⟩
      · rcases hr.of_append with hr | rfl
        · exact .inl hr
        · exact .inr hwaits
      · simp [held_appendRecvReqToQueue, takenFrom]
  | @looks comm' rank frag htakes hnoted =>
      have hnote := hnoted ▸ noteProbed_conserves comm req rank
      refine ⟨hnote.posted, fun p => ?_⟩
      rw [takenFrom_of_not_takes htakes]
      exact hnote.kept p
  | @takes comm' rank frag htakes hnoted hfound =>
      have hnote := hnoted ▸ noteProbed_conserves comm req rank
      have hsrc : frag.hdrSrc = rank :=
        (hnote.tidy ht).source rank frag
          (List.mem_append_right _ (List.mem_of_find?_eq_some hfound))
      have htake : Conserves (comm'.setProc rank
          { comm'.procs rank with
            unexpectedFrags := (comm'.procs rank).unexpectedFrags.eraseP req.fits }) [frag]
          _ [⟨req, frag⟩] :=
        ⟨fun _ => .inl, fun p => by rw [takenFrom_of_takes htakes]⟩
      refine hnote.trans (htake.of_kept ?_ (held_without hsrc ?_))
      · exact fun r hr => hr.of_setProc fun _ => id
      · simp only [CommProc.held, List.append_assoc]
        refine List.Perm.append_left _ ?_
        exact (List.perm_append_singleton frag _).trans
          (Matching.perm_eraseP_of_find? hfound).symm

theorem recvReqStart_conserves (ht : Tidy comm) (req : RecvRequest) :
    Conserves comm [] (recvReqStart comm req).1 (recvReqStart comm req).2 := by
  have hnext : Conserves comm [] { comm with recvSequence := comm.recvSequence + 1 } [] :=
    ⟨fun _ => .inl, fun _ => .refl _⟩
  exact hnext.trans ((recvReqMatch_looked _ _).conserves (hnext.tidy ht))

theorem recvRequestCancel_conserves (comm : Comm M) (req : RecvRequest) :
    Conserves comm [] (recvRequestCancel comm req) [] := by
  unfold recvRequestCancel
  split
  · refine ⟨fun r hr => .inl (hr.imp ?_ id), fun _ => .refl _⟩
    exact fun h => List.erase_sublist.subset h
  · refine .setProc ?_ (by simp [CommProc.held]) (by simp)
    exact fun r hr => List.erase_sublist.subset hr

/-! ## Jobs -/

/-- The messages of a channel are numbered from zero and name their source. -/
def Numbered (src : Nat) (sent : List (Fragment M)) : Prop :=
  ∀ (k : Nat) (frag : Fragment M), sent[k]? = some frag →
    frag.segments.1 = k ∧ frag.hdrSrc = src

theorem Numbered.append {src : Nat} {sent : List (Fragment M)} (h : Numbered src sent)
    {frag : Fragment M} (hnumber : frag.segments.1 = sent.length)
    (hsrc : frag.hdrSrc = src) : Numbered src (sent ++ [frag]) := by
  intro k f hf
  rw [List.getElem?_append] at hf
  split at hf
  · exact h k f hf
  · rw [List.getElem?_singleton] at hf
    split at hf
    · cases hf
      exact ⟨by omega, hsrc⟩
    · cases hf

theorem Numbered.nodup {src : Nat} {sent : List (Fragment M)} (h : Numbered src sent) :
    sent.Nodup := by
  refine List.pairwise_iff_getElem.mpr ?_
  intro i j hi hj hij heq
  have hnumber := (h i _ (List.getElem?_eq_getElem hi)).1
  have hnumber' := (h j _ (List.getElem?_eq_getElem hj)).1
  rw [heq] at hnumber
  omega

namespace Job

variable {P : Type*} [DecidableEq P] {G : Group P} {job job' : Job P M}

structure Accounted (G : Group P) (job : Job P M) : Prop where
  tidy : ∀ p, Tidy (job.comms p)
  myRank : ∀ p, (job.comms p).myRank = G.rank p
  numbered : ∀ src dst, Numbered (G.rank src) (job.sent src dst)
  linked : ∀ src dst, job.sent src dst ≠ [] → G.reaches src dst
  packets : ∀ p ∈ job.flying, G.reaches p.src p.dst ∧ p.frag.hdrSrc = G.rank p.src
  conserved : ∀ src dst, G.reaches src dst → (job.sent src dst).Perm
    (job.inFlight src dst ++ (job.held G src dst ++ job.taken G src dst))

theorem Accounted.receive (ha : Accounted G job) {p : P} {new : List (Fragment M)}
    {comm : Comm (Nat × M)} {done : List (Match (Nat × M))}
    (hc : Conserves (job.comms p) new comm done)
    (hmyRank : comm.myRank = (job.comms p).myRank)
    (hcomms : job'.comms = update job.comms p comm)
    (hlog : job'.log = update job.log p (job.log p ++ done))
    (hsent : job'.sent = job.sent) (hpackets : job'.flying ⊆ job.flying)
    (hflying : ∀ src dst, G.reaches src dst → (job.inFlight src dst).Perm
      (job'.inFlight src dst ++
        if dst = p then new.filter (·.hdrSrc == G.rank src) else [])) :
    Accounted G job' where
  tidy q := by
    rw [hcomms]
    by_cases hq : q = p
    · subst hq
      rw [update_self]
      exact hc.tidy (ha.tidy q)
    · rw [update_of_ne hq]
      exact ha.tidy q
  myRank q := by
    rw [hcomms]
    by_cases hq : q = p
    · subst hq
      rw [update_self, hmyRank]
      exact ha.myRank q
    · rw [update_of_ne hq]
      exact ha.myRank q
  numbered := hsent ▸ ha.numbered
  linked := hsent ▸ ha.linked
  packets packet hpacket := ha.packets packet (hpackets hpacket)
  conserved src dst hlink := by
    rw [hsent, held, taken, hcomms, hlog]
    refine (ha.conserved src dst hlink).trans ?_
    have hfly := hflying src dst hlink
    by_cases hdst : dst = p
    · subst hdst
      rw [if_pos rfl] at hfly
      rw [update_self, update_self, takenFrom_append]
      calc (job.inFlight src dst ++ (job.held G src dst ++ job.taken G src dst)).Perm
            (job'.inFlight src dst ++ new.filter (·.hdrSrc == G.rank src) ++
              (job.held G src dst ++ job.taken G src dst)) := hfly.append_right _
        _ |>.Perm (job'.inFlight src dst ++ (job.held G src dst ++
              new.filter (·.hdrSrc == G.rank src) ++ job.taken G src dst)) := by
              rw [List.append_assoc, ← List.append_assoc _ _ (job.taken G src dst)]
              exact (List.perm_append_comm.append_right _).append_left _
        _ |>.Perm (job'.inFlight src dst ++ ((comm.procs (G.rank src)).held ++
              takenFrom (G.rank src) done ++ job.taken G src dst)) :=
              ((hc.kept (G.rank src)).symm.append_right _).append_left _
        _ |>.Perm _ := by
              rw [List.append_assoc (comm.procs (G.rank src)).held]
              exact (List.perm_append_comm.append_left _).append_left _
    · rw [if_neg hdst, List.append_nil] at hfly
      rw [update_of_ne hdst, update_of_ne hdst]
      exact hfly.append_right _

theorem inFlight_eraseIdx {n : Nat} {packet : Packet P M}
    (h : job.flying[n]? = some packet) (src dst : P) :
    (job.inFlight src dst).Perm
      ({ job with flying := job.flying.eraseIdx n }.inFlight src dst ++
        if packet.src = src ∧ packet.dst = dst then [packet.frag] else []) := by
  obtain ⟨hn, hget⟩ := List.getElem?_eq_some_iff.mp h
  have hperm := (List.getElem_cons_eraseIdx_perm hn).symm
  rw [hget] at hperm
  have hflight := (hperm.filter fun p => decide (p.src = src ∧ p.dst = dst)).map (·.frag)
  refine hflight.trans ?_
  by_cases hpacket : packet.src = src ∧ packet.dst = dst
  · simpa [inFlight, hpacket] using (List.perm_append_singleton packet.frag _).symm
  · rw [List.filter_cons_of_neg (by simpa using hpacket), if_neg hpacket, List.append_nil]
    rfl

/-- A fragment that arrives is the one whose source the receiver reads off it. -/
theorem Accounted.filter_src (ha : Accounted G job) {n : Nat} {packet : Packet P M}
    (hpacket : job.flying[n]? = some packet) {src : P} (hlink : G.reaches src packet.dst) :
    [packet.frag].filter (·.hdrSrc == G.rank src) =
      if packet.src = src then [packet.frag] else [] := by
  obtain ⟨hreaches, hsrc⟩ := ha.packets packet (List.mem_of_getElem? hpacket)
  have hiff : packet.frag.hdrSrc = G.rank src ↔ packet.src = src := by
    rw [hsrc]
    exact ⟨G.rank_inj hreaches hlink, fun h => h ▸ rfl⟩
  simp [List.filter_cons, hiff]

theorem sendFrag_conserves (comm : Comm M) (dst : Nat) (hdrType : HdrType) (tag : Int)
    (data : M) : Conserves comm [] (sendFrag comm dst hdrType tag data).1 [] := by
  unfold sendFrag
  simp only
  split
  · exact .refl comm
  · exact .setProc (fun _ => id) (by simp [CommProc.held]) (by simp)

/-- What does not depend on the state of a peer is the same after a send. -/
theorem sendFrag_read {α : Type*} (f : Comm M → α)
    (hf : ∀ comm rank proc, f (comm.setProc rank proc) = f comm) (comm : Comm M) (dst : Nat)
    (hdrType : HdrType) (tag : Int) (data : M) :
    f (sendFrag comm dst hdrType tag data).1 = f comm := by
  unfold sendFrag
  simp only
  split
  · rfl
  · exact hf ..

theorem Accounted.launch (ha : Accounted G job) {src dst : P} {frag : Fragment M}
    (hlink : G.reaches src dst) (hsrc : frag.hdrSrc = G.rank src)
    (hnumber : frag.segments.1 = (job.sent src dst).length) :
    Accounted G (job.launch src dst frag) where
  tidy := ha.tidy
  myRank := ha.myRank
  numbered p q := by
    by_cases hpq : p = src ∧ q = dst
    · obtain ⟨rfl, rfl⟩ := hpq
      rw [launch_sent_self]
      exact (ha.numbered p q).append hnumber hsrc
    · rw [launch_sent_of_ne hpq]
      exact ha.numbered p q
  linked p q hsent := by
    by_cases hpq : p = src ∧ q = dst
    · obtain ⟨rfl, rfl⟩ := hpq
      exact hlink
    · rw [launch_sent_of_ne hpq] at hsent
      exact ha.linked p q hsent
  packets packet hpacket := by
    rcases List.mem_append.mp hpacket with hpacket | hpacket
    · exact ha.packets packet hpacket
    · rw [List.mem_singleton.mp hpacket]
      exact ⟨hlink, hsrc⟩
  conserved p q hpqlink := by
    have hold := ha.conserved p q hpqlink
    by_cases hpq : p = src ∧ q = dst
    · obtain ⟨rfl, rfl⟩ := hpq
      rw [launch_sent_self, launch_inFlight_self]
      refine (hold.append_right [frag]).trans ?_
      rw [List.append_assoc, List.append_assoc (job.inFlight _ _)]
      exact List.perm_append_comm.append_left _
    · rw [launch_sent_of_ne hpq, launch_inFlight_of_ne hpq]
      exact hold

theorem Accounted.send (ha : Accounted G job) {src dst : P} (hlink : G.reaches src dst)
    (hdrType : HdrType) (tag : Int) (data : M) {sent : Comm (Nat × M) × Fragment M}
    (hsent : sent = sendFrag (job.comms src) (G.rank dst) hdrType tag
      ((job.sent src dst).length, data)) :
    Accounted G ((job.set src sent.1 []).launch src dst sent.2) := by
  have hset : Accounted G (job.set src sent.1 []) :=
    ha.receive (hsent ▸ sendFrag_conserves ..) (hsent ▸ sendFrag_read Comm.myRank (fun _ _ _ => rfl) ..) rfl rfl rfl
      (List.Subset.refl _) fun _ _ _ => by simp [inFlight]
  obtain ⟨seq, hfrag⟩ := sendFrag_frag (job.comms src) (G.rank dst) hdrType tag
    ((job.sent src dst).length, data)
  rw [← hsent] at hfrag
  refine hset.launch hlink ?_ ?_
  · rw [hfrag]
    exact ha.myRank src
  · rw [hfrag]
    rfl

theorem Accounted.step (ha : Accounted G job) {a : Action P M}
    (h : job.step G a = some job') : Accounted G job' := by
  cases step_moved h with
  | send hreaches hsent => exact ha.send hreaches _ _ _ hsent
  | @deliver n src dst frag s hflying hs =>
      refine ha.receive (hs.conserves (ha.tidy dst).waits) ?_ rfl rfl rfl ?_ ?_
      · exact Comm.eq_of_fixed Comm.myRank (fun _ => rfl) hs.fixed
      · exact (List.eraseIdx_sublist job.flying n).subset
      · intro p q hpq
        refine (inFlight_eraseIdx hflying p q).trans (.of_eq ?_)
        by_cases hq : q = dst
        · subst hq
          rw [if_pos rfl, ha.filter_src hflying hpq]
          simp only [and_true]
          rfl
        · rw [if_neg hq, if_neg fun h => hq h.2.symm]
          rfl
  | @check p peer s hchecks hs =>
      refine ha.receive (hs.conserves (ha.tidy p)) ?_ rfl rfl rfl (List.Subset.refl _) ?_
      · exact Comm.eq_of_fixed Comm.myRank (fun _ => rfl) hs.fixed
      · intro src dst _
        simp [inFlight]
  | @start p req r hr =>
      subst hr
      refine ha.receive (recvReqStart_conserves (ha.tidy p) req) ?_ rfl rfl rfl
        (List.Subset.refl _) ?_
      · obtain ⟨probed, hfixed⟩ := recvReqStart_fixed (job.comms p) req
        have hmyRank := congrArg Comm.myRank hfixed
        exact hmyRank
      · intro src dst _
        simp [inFlight, set]
  | @cancel p req =>
      refine ha.receive (recvRequestCancel_conserves (job.comms p) req) ?_ rfl rfl rfl
        (List.Subset.refl _) ?_
      · exact Comm.eq_of_fixed Comm.myRank (fun _ => rfl)
          (recvRequestCancel_fixed (job.comms p) req)
      · intro src dst _
        simp [inFlight, set]

theorem Accounted.init (G : Group P) (contextId : UInt16)
    (allowOvertake noAnySource : Bool) :
    Accounted G (init G contextId allowOvertake noAnySource : Job P M) where
  tidy p := ⟨fun req h => by simp [Job.init, Comm.Posted] at h,
    fun p frag h => by simp [Job.init, CommProc.held] at h⟩
  myRank _ := rfl
  numbered _ _ k frag h := by simp [Job.init] at h
  linked _ _ h := absurd rfl h
  packets _ h := by cases h
  conserved _ _ _ := by simp [Job.init, inFlight, held, taken, takenFrom, CommProc.held]

theorem Run.accounted {ok : Job P M → Action P M → Prop} (h : Run G ok job job')
    (ha : Accounted G job) : Accounted G job' :=
  h.keeps (fun _ _ _ ha hstep => ha.step hstep) ha

def pair : Group (Fin 2) := .intra 2 (by decide)

def sender : Fin 2 := 0

def receiver : Fin 2 := 1

/-- Two messages arrive in the wrong order and before anything asks for them. -/
def crossing : List (Action (Fin 2) Unit) :=
  [.send sender receiver .match_ 5 (), .send sender receiver .match_ 5 (), .deliver 1,
    .deliver 0, .check receiver sender, .check receiver sender,
    .start receiver ⟨.recv, some 0, 5, 0⟩, .start receiver ⟨.recv, some 0, 5, 0⟩]

end Job

end ProgPara.Ob1
