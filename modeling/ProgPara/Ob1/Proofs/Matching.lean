import Mathlib.Data.List.Find
import ProgPara.Matching.Schedule
import ProgPara.Ob1.Matching
import ProgPara.Ob1.Proofs.OrderedList

/-!
# The queues of a communicator are one board

The receives posted are spread over a queue for each peer and a queue for those
that accept any source, which the search merges by sequence number.  Seen from
outside there is a single list of requests in the order they were started, and
`Represents` reads it off the queues.
-/

namespace ProgPara.Ob1

open Function Matching

variable {M : Type*}

def rules : Rules RecvRequest (RecvFrag M) Nat where
  peer req := req.reqPeer
  fits req _ frag := req.tagMatches frag.hdrTag
  takes := RecvRequest.takes
  waits := RecvRequest.waits

structure Represents (comm : Comm M) (b : Board RecvRequest (RecvFrag M) Nat) :
    Prop where
  wild : comm.wildReceives = b.posted.filter isWild
  specific : ∀ p, (comm.procs p).specificReceives = b.posted.filter (isSpecific p)
  unexpected : ∀ p, (comm.procs p).unexpectedFrags = b.waiting p
  sorted : b.posted.Pairwise fun r₁ r₂ => r₁.reqSequence < r₂.reqSequence
  numbered : ∀ req ∈ b.posted, req.reqSequence < comm.recvSequence.toNat
  waits : ∀ req ∈ b.posted, req.waits
  noWild : comm.noAnySource → ∀ req ∈ b.posted, req.reqPeer ≠ none

/-! ## The merged search -/

theorem lt_headSeq_filter {posted : List RecvRequest} {k : Nat}
    (h : ∀ req ∈ posted, k < req.reqSequence) (hk : k < pmlMaxSeq)
    (q : RecvRequest → Bool) : k < headSeq (posted.filter q) := by
  cases hf : posted.filter q with
  | nil => exact hk
  | cons req rest =>
      have hmem : req ∈ posted.filter q := hf ▸ List.mem_cons_self
      exact h req (List.mem_filter.mp hmem).1

/-- Walking the two queues finds the oldest request of the whole list that is of
one of them and takes the tag. -/
theorem matchIncomming_filter (p : Nat) (tag : Int) {posted : List RecvRequest}
    (hsorted : posted.Pairwise fun r₁ r₂ => r₁.reqSequence < r₂.reqSequence)
    (hmax : ∀ req ∈ posted, req.reqSequence < pmlMaxSeq) :
    matchIncomming tag (posted.filter isWild) (posted.filter (isSpecific p)) =
      (posted.find? (·.accepts p tag)).map fun req =>
        (req, (posted.eraseP (·.accepts p tag)).filter isWild,
          (posted.eraseP (·.accepts p tag)).filter (isSpecific p)) := by
  induction posted with
  | nil =>
      unfold matchIncomming
      simp
  | cons req rest ih =>
      obtain ⟨hfirst, hrest⟩ := List.pairwise_cons.mp hsorted
      have hseq := hmax req List.mem_cons_self
      have ih' := ih hrest fun r hr => hmax r (List.mem_cons_of_mem _ hr)
      have hwild := lt_headSeq_filter hfirst hseq isWild
      have hspecific := lt_headSeq_filter hfirst hseq (isSpecific p)
      have hhead : ∀ l, headSeq (req :: l) = req.reqSequence := fun _ => rfl
      cases hw : isWild req with
      | true =>
          have hs : isSpecific p req = false := by
            simp only [isWild, beq_iff_eq] at hw
            simp [isSpecific, hw]
          have hacc : req.accepts p tag = req.tagMatches tag := by simp [RecvRequest.accepts, hw]
          simp only [List.filter_cons, hw, hs, if_true, Bool.false_eq_true, if_false]
          unfold matchIncomming
          rw [hhead, if_neg (by omega), if_pos hspecific]
          by_cases htag : req.tagMatches tag
          · simp [htag, hacc]
          · simp [htag, hacc, hw, hs, ih', Function.comp_def]
      | false =>
          cases hs : isSpecific p req with
          | true =>
              have hacc : req.accepts p tag = req.tagMatches tag := by simp [RecvRequest.accepts, hs]
              simp only [List.filter_cons, hw, hs, if_true, Bool.false_eq_true, if_false]
              unfold matchIncomming
              rw [hhead, if_neg (by omega), if_neg (by omega)]
              by_cases htag : req.tagMatches tag
              · simp [htag, hacc]
              · simp [htag, hacc, hw, hs, ih', Function.comp_def]
          | false =>
              have hacc : req.accepts p tag = false := by simp [RecvRequest.accepts, hw, hs]
              simp [hw, hs, hacc, ih']

theorem matchIncommingNoAnySource_filter (p : Nat) (tag : Int)
    {posted : List RecvRequest} (hnoWild : ∀ req ∈ posted, ¬isWild req) :
    matchIncommingNoAnySource tag (posted.filter (isSpecific p)) =
      (posted.find? (·.accepts p tag)).map fun req =>
        (req, (posted.eraseP (·.accepts p tag)).filter (isSpecific p)) := by
  induction posted with
  | nil => rfl
  | cons req rest ih =>
      have ih' := ih fun r hr => hnoWild r (List.mem_cons_of_mem _ hr)
      have hw : isWild req = false := by simpa using hnoWild req List.mem_cons_self
      cases hs : isSpecific p req with
      | true =>
          have hacc : req.accepts p tag = req.tagMatches tag := by simp [RecvRequest.accepts, hs]
          simp only [List.filter_cons, hs, if_true, matchIncommingNoAnySource]
          by_cases htag : req.tagMatches tag
          · simp [htag, hacc]
          · simp [htag, hacc, hs, ih', Function.comp_def]
      | false =>
          have hacc : req.accepts p tag = false := by simp [RecvRequest.accepts, hw, hs]
          simp [hs, hacc, ih']

theorem filter_eraseP_of_disjoint {α : Type*} {q adm : α → Bool}
    (h : ∀ a, adm a → ¬q a) (l : List α) : (l.eraseP adm).filter q = l.filter q := by
  induction l with
  | nil => rfl
  | cons a l ih =>
      by_cases ha : adm a
      · rw [List.eraseP_cons_of_pos ha, List.filter_cons_of_neg (h a ha)]
      · rw [List.eraseP_cons_of_neg ha, List.filter_cons, List.filter_cons, ih]

/-! ## Fragments -/

def toMatch (x : Pair RecvRequest (RecvFrag M) Nat) : Match M := ⟨x.req, x.msg⟩

namespace Represents

variable {comm : Comm M} {b : Board RecvRequest (RecvFrag M) Nat}
  (hr : Represents comm b)
include hr

theorem sequence_lt {req : RecvRequest} (hreq : req ∈ b.posted) :
    req.reqSequence < pmlMaxSeq := by
  have h₁ := hr.numbered req hreq
  have h₂ := comm.recvSequence.toNat_lt
  unfold pmlMaxSeq
  omega

theorem searchPosted_eq (p : Nat) (frag : RecvFrag M) :
    searchPosted comm p frag =
      (b.posted.find? (rules.admits · p frag)).map fun req =>
        (req, (b.posted.eraseP (rules.admits · p frag)).filter isWild,
          (b.posted.eraseP (rules.admits · p frag)).filter (isSpecific p)) := by
  have hadm : (rules.admits · p frag) = (·.accepts p frag.hdrTag) := rfl
  unfold searchPosted
  rw [hr.wild, hr.specific, hadm]
  split
  · rename_i hno
    have hnoWild : ∀ req ∈ b.posted, ¬isWild req := by
      intro req hreq
      simpa [isWild] using hr.noWild hno req hreq
    have hnil : b.posted.filter isWild = [] := List.filter_eq_nil_iff.mpr hnoWild
    have hnil' : (b.posted.eraseP (·.accepts p frag.hdrTag)).filter isWild = [] :=
      List.filter_eq_nil_iff.mpr fun req hreq =>
        hnoWild req (List.eraseP_sublist.subset hreq)
    rw [matchIncommingNoAnySource_filter p _ hnoWild, hnil, hnil', Option.map_map]
    rfl
  · exact matchIncomming_filter p _ hr.sorted fun req => hr.sequence_lt

theorem eraseP (p : Nat) (frag : RecvFrag M) :
    Represents
      ({ comm with
          wildReceives :=
            (b.posted.eraseP (rules.admits · p frag)).filter isWild }.setProc p
        { comm.procs p with
          specificReceives :=
            (b.posted.eraseP (rules.admits · p frag)).filter (isSpecific p) })
      { b with posted := b.posted.eraseP (rules.admits · p frag) } where
  wild := rfl
  specific q := by
    by_cases hq : q = p
    · subst hq
      simp [Comm.setProc]
    · have hdisj : ∀ req, rules.admits req p frag → ¬isSpecific q req := by
        intro req hadm hs
        simp only [isSpecific, beq_iff_eq] at hs
        simp [Rules.admits, rules, hs, hq] at hadm
      rw [filter_eraseP_of_disjoint hdisj, ← hr.specific q]
      simp [Comm.setProc, hq]
  unexpected q := by
    rw [← hr.unexpected q]
    by_cases hq : q = p
    · subst hq
      simp [Comm.setProc]
    · simp [Comm.setProc, hq]
  sorted := hr.sorted.sublist List.eraseP_sublist
  numbered req hreq := hr.numbered req (List.eraseP_sublist.subset hreq)
  waits req hreq := hr.waits req (List.eraseP_sublist.subset hreq)
  noWild hno req hreq := hr.noWild hno req (List.eraseP_sublist.subset hreq)

theorem setProc {p : Nat} {proc : CommProc M}
    (hspecific : proc.specificReceives = (comm.procs p).specificReceives)
    (hunexpected : proc.unexpectedFrags = (comm.procs p).unexpectedFrags) :
    Represents (comm.setProc p proc) b where
  wild := hr.wild
  specific q := by
    rw [← hr.specific q]
    by_cases hq : q = p
    · subst hq
      simpa [Comm.setProc] using hspecific
    · simp [Comm.setProc, hq]
  unexpected q := by
    rw [← hr.unexpected q]
    by_cases hq : q = p
    · subst hq
      simpa [Comm.setProc] using hunexpected
    · simp [Comm.setProc, hq]
  sorted := hr.sorted
  numbered := hr.numbered
  waits := hr.waits
  noWild := hr.noWild

theorem appendUnexpected (p : Nat) (frag : RecvFrag M) :
    Represents (comm.appendUnexpected p frag)
      { b with waiting := update b.waiting p (b.waiting p ++ [frag]) } where
  wild := hr.wild
  specific q := by
    rw [← hr.specific q]
    by_cases hq : q = p
    · subst hq
      simp [Comm.appendUnexpected, Comm.setProc]
    · simp [Comm.appendUnexpected, Comm.setProc, hq]
  unexpected q := by
    by_cases hq : q = p
    · subst hq
      simp [Comm.appendUnexpected, Comm.setProc, hr.unexpected]
    · simp [Comm.appendUnexpected, Comm.setProc, hq, hr.unexpected]
  sorted := hr.sorted
  numbered := hr.numbered
  waits := hr.waits
  noWild := hr.noWild

/-- `match_one` shows the fragment to the requests as the board does. -/
theorem matchOne (p : Nat) (frag : RecvFrag M) :
    Represents (Ob1.matchOne comm p frag).1 (b.arrive rules p frag).1 ∧
      (Ob1.matchOne comm p frag).2 = (b.arrive rules p frag).2.map toMatch := by
  revert b
  fun_induction Ob1.matchOne comm p frag with
  | case1 comm hsearch =>
      intro b hr
      rw [hr.searchPosted_eq, Option.map_eq_none_iff] at hsearch
      have hoffer := rules.offer_eq p frag b.posted
      rw [hsearch] at hoffer
      simp only [Board.arrive, hoffer, Bool.false_eq_true, if_false]
      exact ⟨hr.appendUnexpected p frag, rfl⟩
  | case2 comm req wild specific hsearch comm' hprobe after done hrec =>
      rename_i ih
      intro b hr
      rw [hr.searchPosted_eq, Option.map_eq_some_iff] at hsearch
      obtain ⟨r, hfind, heq⟩ := hsearch
      cases heq
      obtain ⟨hafter, hdone⟩ := ih (hr.eraseP p frag)
      have htakes : (rules (M := M)).takes req = false := by
        simp [rules, RecvRequest.takes, hprobe]
      have hoffer := rules.offer_eq p frag b.posted
      rw [hfind] at hoffer
      simp only [htakes, Bool.false_eq_true, if_false] at hoffer
      rw [hrec] at hafter hdone
      change done = _ at hdone
      simp only [Board.arrive, hoffer, List.map_cons]
      refine ⟨hafter, ?_⟩
      rw [hdone]
      rfl
  | case3 comm req wild specific hsearch comm' =>
      rename_i hprobe
      intro b hr
      rw [hr.searchPosted_eq, Option.map_eq_some_iff] at hsearch
      obtain ⟨r, hfind, heq⟩ := hsearch
      cases heq
      have hwaits := hr.waits req (List.mem_of_find?_eq_some hfind)
      have htakes : (rules (M := M)).takes req = true := by
        simp only [RecvRequest.waits, Bool.and_eq_true, bne_iff_ne, ne_eq] at hwaits
        simp only [rules, RecvRequest.takes, Bool.and_eq_true, bne_iff_ne, ne_eq]
        exact ⟨hwaits.1, hprobe⟩
      have hoffer := rules.offer_eq p frag b.posted
      rw [hfind] at hoffer
      simp only [htakes, if_true] at hoffer
      simp only [Board.arrive, hoffer, if_true, List.map_cons, List.map_nil]
      exact ⟨hr.eraseP p frag, rfl⟩

end Represents

/-! ## Requests -/

/-- What arrived is from ranks of the communicator and does not carry the value
that requests use for any tag. -/
structure Regular (comm : Comm M) (b : Board RecvRequest (RecvFrag M) Nat) : Prop where
  probed : comm.lastProbed < comm.numProcs
  ranks : ∀ p, ∀ frag ∈ b.waiting p, p < comm.numProcs
  tags : ∀ p, ∀ frag ∈ b.waiting p, frag.hdrTag ≠ anyTag

def searchOrder (comm : Comm M) (req : RecvRequest) : List Nat :=
  match req.reqPeer with
  | none => probeOrder comm
  | some p => [p]

theorem mem_probeOrder {comm : Comm M} (h : comm.lastProbed < comm.numProcs) {p : Nat} :
    p ∈ probeOrder comm ↔ p < comm.numProcs := by
  simp only [probeOrder, List.mem_append, List.mem_range'_1, List.mem_range]
  omega

/-- The two tests on tags agree on what is sent. -/
theorem fits_eq_tagMatches (req : RecvRequest) {frag : RecvFrag M}
    (h : frag.hdrTag ≠ anyTag) : req.fits frag = req.tagMatches frag.hdrTag := by
  unfold RecvRequest.fits RecvRequest.tagMatches
  by_cases hany : req.reqTag = anyTag
  · have hne : (anyTag == frag.hdrTag) = false := by simpa using Ne.symm h
    simp [hany, hne]
  · simp [hany, Ne.symm hany, Bool.beq_comm]

theorem eraseP_congr {α : Type*} {p q : α → Bool} {l : List α} (h : ∀ a ∈ l, p a = q a) :
    l.eraseP p = l.eraseP q := by
  induction l with
  | nil => rfl
  | cons a l ih =>
      rw [List.eraseP_cons, List.eraseP_cons, h a List.mem_cons_self,
        ih fun b hb => h b (List.mem_cons_of_mem _ hb)]

section Start

variable {comm : Comm M} {b : Board RecvRequest (RecvFrag M) Nat}

theorem Regular.covers (hreg : Regular comm b) (req : RecvRequest) :
    b.Covers rules (searchOrder comm req) req := by
  intro p frag hfrag hadm
  unfold searchOrder
  split
  · exact (mem_probeOrder hreg.probed).mpr (hreg.ranks p frag hfrag)
  · rename_i q hq
    simp only [Rules.admits, rules, hq, Bool.and_eq_true, Bool.or_eq_true, beq_iff_eq,
      reduceCtorEq, false_or, Option.some_inj] at hadm
    exact List.mem_singleton.mpr hadm.1.symm

variable (hr : Represents comm b) (hreg : Regular comm b)
include hr hreg

theorem Represents.matchSpecific_eq (req : RecvRequest) (p : Nat) :
    recvReqMatchSpecificProc req (comm.procs p) =
      (b.waiting p).find? (rules.fits req p) := by
  unfold recvReqMatchSpecificProc
  rw [hr.unexpected]
  exact List.find?_congr fun frag hfrag => fits_eq_tagMatches req (hreg.tags p frag hfrag)

theorem Represents.unexpected_eraseP (req : RecvRequest) (p : Nat) :
    (comm.procs p).unexpectedFrags.eraseP req.fits =
      (b.waiting p).eraseP (rules.fits req p) := by
  rw [hr.unexpected]
  exact eraseP_congr fun frag hfrag => fits_eq_tagMatches req (hreg.tags p frag hfrag)

theorem Represents.searchUnexpected_eq (req : RecvRequest) :
    searchUnexpected comm req =
      rules.search (searchOrder comm req) req b.waiting := by
  unfold searchUnexpected searchOrder
  cases hpeer : req.reqPeer with
  | some p =>
      simp only
      rw [rules.search_named (List.mem_singleton_self p) hpeer,
        hr.matchSpecific_eq hreg]
  | none =>
      have hpeer' : (rules (M := M)).peer req = none := hpeer
      simp only [recvReqMatchWild, Rules.search]
      congr 1
      funext p
      rw [hr.matchSpecific_eq hreg, if_pos (Or.inl hpeer')]

end Start

/-! ## Starting and cancelling -/

section Post

variable {comm : Comm M} {b : Board RecvRequest (RecvFrag M) Nat}

theorem Represents.appendRecvReqToQueue (hr : Represents comm b) {req : RecvRequest}
    (hposted : ∀ r ∈ b.posted, r.reqSequence < req.reqSequence)
    (hseq : req.reqSequence < comm.recvSequence.toNat) (hwaits : req.waits)
    (hno : comm.noAnySource → req.reqPeer ≠ none) :
    Represents (Ob1.appendRecvReqToQueue comm req)
      { b with posted := b.posted ++ [req] } := by
  have hsorted : (b.posted ++ [req]).Pairwise fun r₁ r₂ =>
      r₁.reqSequence < r₂.reqSequence :=
    List.pairwise_append.mpr ⟨hr.sorted, List.pairwise_singleton _ _, fun r hmem r' hr' =>
      List.mem_singleton.mp hr' ▸ hposted r hmem⟩
  have hall : ∀ {P : RecvRequest → Prop}, (∀ r ∈ b.posted, P r) → P req →
      ∀ r ∈ b.posted ++ [req], P r := by
    intro P hold hnew r hmem
    rcases List.mem_append.mp hmem with h | h
    · exact hold r h
    · exact List.mem_singleton.mp h ▸ hnew
  unfold Ob1.appendRecvReqToQueue
  split
  · rename_i hpeer
    exact {
      wild := by simp [hr.wild, isWild, hpeer]
      specific := fun p => by simp [hr.specific, isSpecific, hpeer]
      unexpected := hr.unexpected
      sorted := hsorted
      numbered := hall hr.numbered hseq
      waits := hall hr.waits hwaits
      noWild := fun h => hall (hr.noWild h) (hno h) }
  · rename_i rank hpeer
    exact {
      wild := by simp [hr.wild, Comm.setProc, isWild, hpeer]
      specific := fun p => by
        by_cases hp : p = rank
        · subst hp
          simp [hr.specific, Comm.setProc, isSpecific, hpeer]
        · simp [hr.specific, Comm.setProc, isSpecific, hpeer, hp, Ne.symm hp]
      unexpected := fun p => by
        by_cases hp : p = rank
        · subst hp
          simp [Comm.setProc, hr.unexpected]
        · simp [Comm.setProc, hp, hr.unexpected]
      sorted := hsorted
      numbered := hall hr.numbered hseq
      waits := hall hr.waits hwaits
      noWild := fun h => hall (hr.noWild h) (hno h) }

theorem Represents.setUnexpected (hr : Represents comm b) (p : Nat)
    (queue : List (RecvFrag M)) :
    Represents (comm.setProc p { comm.procs p with unexpectedFrags := queue })
      { b with waiting := update b.waiting p queue } where
  wild := hr.wild
  specific q := by
    rw [← hr.specific q]
    by_cases hq : q = p
    · subst hq
      simp [Comm.setProc]
    · simp [Comm.setProc, hq]
  unexpected q := by
    by_cases hq : q = p
    · subst hq
      simp [Comm.setProc]
    · simp [Comm.setProc, hq, hr.unexpected]
  sorted := hr.sorted
  numbered := hr.numbered
  waits := hr.waits
  noWild := hr.noWild

theorem Represents.setCounters (hr : Represents comm b) (sequence : UInt32)
    (probed : Nat) (hle : comm.recvSequence.toNat ≤ sequence.toNat) :
    Represents { comm with recvSequence := sequence, lastProbed := probed } b where
  wild := hr.wild
  specific := hr.specific
  unexpected := hr.unexpected
  sorted := hr.sorted
  numbered req hreq := Nat.lt_of_lt_of_le (hr.numbered req hreq) hle
  waits := hr.waits
  noWild := hr.noWild

variable (hr : Represents comm b) (hreg : Regular comm b)
include hr hreg

omit hr in
theorem Regular.noteProbed (req : RecvRequest) {p : Nat} {frag : RecvFrag M}
    (hfrag : frag ∈ b.waiting p) : Regular (Ob1.noteProbed comm req p) b := by
  unfold Ob1.noteProbed
  split
  · exact ⟨hreg.ranks p frag hfrag, hreg.ranks, hreg.tags⟩
  · exact hreg

omit hreg in
theorem Represents.noteProbed (req : RecvRequest) (p : Nat) :
    Represents (Ob1.noteProbed comm req p) b := by
  unfold Ob1.noteProbed
  split
  · exact hr.setCounters comm.recvSequence p (Nat.le_refl _)
  · exact hr

theorem Represents.recvReqMatch (req : RecvRequest)
    (hposted : ∀ r ∈ b.posted, r.reqSequence < req.reqSequence)
    (hseq : req.reqSequence < comm.recvSequence.toNat)
    (hno : comm.noAnySource → req.reqPeer ≠ none) :
    Represents (Ob1.recvReqMatch comm req).1 (b.post rules (searchOrder comm req) req).1 ∧
      Regular (Ob1.recvReqMatch comm req).1
        (b.post rules (searchOrder comm req) req).1 ∧
      (Ob1.recvReqMatch comm req).2 =
        (b.post rules (searchOrder comm req) req).2.map toMatch := by
  unfold Ob1.recvReqMatch Board.post
  rw [hr.searchUnexpected_eq hreg]
  cases hfound : rules.search (searchOrder comm req) req b.waiting with
  | none =>
      simp only
      by_cases hwaits : req.waits
      · have htype : ¬(req.reqType = .iprobe ∨ req.reqType = .improbe) := by
          simpa [RecvRequest.waits] using hwaits
        rw [if_neg htype, if_pos (show rules.waits req = true from hwaits)]
        refine ⟨hr.appendRecvReqToQueue hposted hseq hwaits hno, ?_, rfl⟩
        unfold Ob1.appendRecvReqToQueue
        split
        · exact ⟨hreg.probed, hreg.ranks, hreg.tags⟩
        · exact ⟨hreg.probed, hreg.ranks, hreg.tags⟩
      · have htype : req.reqType = .iprobe ∨ req.reqType = .improbe := by
          simpa [RecvRequest.waits, or_iff_not_imp_left] using hwaits
        rw [if_pos htype, if_neg (show ¬rules.waits req = true from hwaits)]
        exact ⟨hr, hreg, rfl⟩
  | some pf =>
      obtain ⟨p, frag⟩ := pf
      obtain ⟨hfind, -⟩ := Rules.search_eq_some hfound
      have hfrag := List.mem_of_find?_eq_some hfind
      have hr' := hr.noteProbed req p
      have hreg' := hreg.noteProbed req hfrag
      simp only
      by_cases htakes : req.takes
      · have htype : ¬(req.reqType = .iprobe ∨ req.reqType = .probe) := by
          simpa [RecvRequest.takes] using htakes
        rw [if_neg htype, if_pos (show rules.takes req = true from htakes),
          hr'.unexpected_eraseP hreg']
        refine ⟨hr'.setUnexpected p _, ?_, rfl⟩
        have hsub : ∀ q, ∀ g ∈ update b.waiting p ((b.waiting p).eraseP (rules.fits req p)) q,
            g ∈ b.waiting q := by
          intro q g hg
          by_cases hq : q = p
          · subst hq
            rw [update_self] at hg
            exact List.eraseP_sublist.subset hg
          · rwa [update_of_ne hq] at hg
        exact ⟨hreg'.probed, fun q g hg => hreg'.ranks q g (hsub q g hg),
          fun q g hg => hreg'.tags q g (hsub q g hg)⟩
      · have htype : req.reqType = .iprobe ∨ req.reqType = .probe := by
          simpa [RecvRequest.takes, or_iff_not_imp_left] using htakes
        rw [if_pos htype, if_neg (show ¬rules.takes req = true from htakes)]
        exact ⟨hr', hreg', rfl⟩

theorem Represents.recvReqStart {req : RecvRequest}
    (hwrap : comm.recvSequence.toNat + 1 < 2 ^ 32)
    (hno : comm.noAnySource → req.reqPeer ≠ none) :
    Represents (Ob1.recvReqStart comm req).1
        (b.post rules (searchOrder comm req) (assigned comm req)).1 ∧
      Regular (Ob1.recvReqStart comm req).1
        (b.post rules (searchOrder comm req) (assigned comm req)).1 ∧
      (Ob1.recvReqStart comm req).2 =
        (b.post rules (searchOrder comm req) (assigned comm req)).2.map toMatch := by
  have hsucc : (comm.recvSequence + 1).toNat = comm.recvSequence.toNat + 1 := by
    rw [UInt32.toNat_add]
    exact Nat.mod_eq_of_lt hwrap
  have hr' := hr.setCounters (comm.recvSequence + 1) comm.lastProbed (by omega)
  have hreg' : Regular { comm with recvSequence := comm.recvSequence + 1 } b :=
    ⟨hreg.probed, hreg.ranks, hreg.tags⟩
  refine hr'.recvReqMatch hreg' (assigned comm req) hr.numbered ?_ hno
  simp only [assigned, hsucc]
  exact Nat.lt_succ_self _

omit hreg in
theorem Represents.recvRequestCancel (req : RecvRequest) :
    Represents (Ob1.recvRequestCancel comm req) (b.cancel req) := by
  have hother : ∀ q : RecvRequest → Bool, ¬q req →
      (b.posted.erase req).filter q = b.posted.filter q := by
    intro q hq
    rw [← List.erase_filter, List.erase_of_not_mem]
    exact fun hmem => hq (List.mem_filter.mp hmem).2
  have hsub : ∀ {P : RecvRequest → Prop}, (∀ r ∈ b.posted, P r) →
      ∀ r ∈ b.posted.erase req, P r :=
    fun hold r hmem => hold r (List.erase_sublist.subset hmem)
  unfold Ob1.recvRequestCancel Board.cancel
  split
  · rename_i hpeer
    exact {
      wild := by rw [← List.erase_filter, ← hr.wild]
      specific := fun p => by
        rw [hother _ (by simp [isSpecific, hpeer]), ← hr.specific p]
      unexpected := hr.unexpected
      sorted := hr.sorted.sublist List.erase_sublist
      numbered := hsub hr.numbered
      waits := hsub hr.waits
      noWild := fun h => hsub (hr.noWild h) }
  · rename_i rank hpeer
    exact {
      wild := by
        rw [hother _ (by simp [isWild, hpeer]), ← hr.wild]
        rfl
      specific := fun p => by
        by_cases hp : p = rank
        · subst hp
          rw [← List.erase_filter, ← hr.specific p]
          simp [Comm.setProc]
        · rw [hother _ (by simp [isSpecific, hpeer, Ne.symm hp]), ← hr.specific p]
          simp [Comm.setProc, hp]
      unexpected := fun p => by
        by_cases hp : p = rank
        · subst hp
          simp [Comm.setProc, hr.unexpected]
        · simp [Comm.setProc, hp, hr.unexpected]
      sorted := hr.sorted.sublist List.erase_sublist
      numbered := hsub hr.numbered
      waits := hsub hr.waits
      noWild := fun h => hsub (hr.noWild h) }

end Post

end ProgPara.Ob1
