import ProgPara.Example.Protocole

/-!
# What each program does next

The progress of a process is read off its control point and its loop counter.
`Pere.Etape` and `Fils.Etape` list the calls a process can be at and how each
changes its progress; the invariant of the job is proved from them alone.
-/

namespace ProgPara.Example

open Memory Network

variable {P : Type} {n : ℕ}

/-! ## The father -/

namespace Pere

def lance (s : Pere P) : Bool :=
  match s.point with
  | .init | .commSize | .commSpawnMultiple => false
  | _ => true

def envois (s : Pere P) : ℕ :=
  match s.point with
  | .init | .commSize | .commSpawnMultiple | .sendAmbiante => 0
  | .sendDepart => s.i.toNat
  | .recv | .finalize => 4

def receptions (s : Pere P) : ℕ :=
  match s.point with
  | .recv => s.i.toNat
  | .finalize => 4
  | _ => 0

theorem envois_of_not_lance {s : Pere P} (h : s.lance = false) : s.envois = 0 := by
  unfold lance at h
  unfold envois
  split at h <;> simp_all

theorem receptions_of_not_lance {s : Pere P} (h : s.lance = false) :
    s.receptions = 0 := by
  unfold lance at h
  unfold receptions
  split at h <;> simp_all

structure Pret (s : Pere (Proc n)) : Prop where
  intercomm : s.intercomm = some (enfants n)
  ambiante : s.temperatureAmbiante = .ofInt Example.temperatureAmbiante
  depart : s.temperatureDepart = .ofInt Example.temperatureDepart

def debords (n k : ℕ) : List Call :=
  (if 4 < n then [.commSpawnMultiple .errcodes] else []) ++
    (List.range k).map fun j => .recv .returnValue j

structure Coherent (s : Pere (Proc n)) : Prop where
  nombreProg1 : s.nombreProg1 = n
  sendDepart : s.point = .sendDepart → 1 ≤ s.i ∧ s.i < 4
  recv : s.point = .recv → 0 ≤ s.i ∧ s.i < 4
  pret : s.lance = true → s.Pret
  faults : s.faults = if s.lance then debords n s.receptions else []

/-- The calls of the father, with the progress before and after each. -/
inductive Etape (s : Pere (Proc n)) :
    Action (Proc n) Mpi.Message Call (Pere (Proc n)) → Prop
  | prologue {s' : Pere (Proc n)} (hl : s.lance = false) (hs' : s'.Coherent)
      (hl' : s'.lance = false) : Etape s (.tau s')
  | lancement {s' : Pere (Proc n)} (hl : s.lance = false) (hs' : s'.Coherent)
      (hl' : s'.lance = true) (he' : s'.envois = 0) (hr' : s'.receptions = 0) :
      Etape s (.spawn s')
  | envoi {s' : Pere (Proc n)} {r : Fin (n + 1)} (hl : s.lance = true)
      (he : s.envois = r) (hr : s.receptions = 0) (hs' : s'.Coherent)
      (hl' : s'.lance = true) (he' : s'.envois = r + 1) (hr' : s'.receptions = 0) :
      Etape s (.send (.fils r) (temperatureDe r) s')
  | erreur (hn : n < 3) (he : s.envois = n + 1) :
      Etape s (.abort (.send .temperatureDepart (n + 1)))
  | reception {k : Mpi.Message → Pere (Proc n)} {r : Fin (n + 1)} (hl : s.lance = true)
      (he : s.envois = 4) (hr : s.receptions = r) (h4 : r.val < 4)
      (hk : ∀ m, m.length = 4 → (k m).Coherent ∧ (k m).lance = true ∧
        (k m).envois = 4 ∧ (k m).receptions = r + 1) : Etape s (.recv (.fils r) k)
  | fin (hp : s.point = .finalize) : Etape s .halt

end Pere

theorem enfants_peer {k : ℕ} (h : k < n + 1) :
    (enfants n).peer k = some (.fils ⟨k, h⟩) := Mpi.Intercomm.peer_of_lt h

theorem enfants_peer_of_le {k : ℕ} (h : n + 1 ≤ k) : (enfants n).peer k = none :=
  Mpi.Intercomm.peer_of_le h

theorem boucleReception_spec {s : Pere (Proc n)} (hn : s.nombreProg1 = n) (hp : s.Pret)
    (hlo : 0 ≤ s.i) (hhi : s.i ≤ 4) (hf : s.faults = Pere.debords n s.i.toNat) :
    (boucleReception s).Coherent ∧ (boucleReception s).lance = true ∧
      (boucleReception s).envois = 4 ∧ (boucleReception s).receptions = s.i.toNat := by
  unfold boucleReception
  split
  · rename_i hlt
    refine ⟨⟨hn, by simp, fun _ => ⟨hlo, hlt⟩, fun _ => ⟨hp.1, hp.2, hp.3⟩, hf⟩,
      rfl, rfl, rfl⟩
  · rename_i hge
    have hi : s.i.toNat = 4 := by omega
    rw [hi] at hf ⊢
    exact ⟨⟨hn, by simp, by simp, fun _ => ⟨hp.1, hp.2, hp.3⟩, hf⟩, rfl, rfl, rfl⟩

theorem boucleEnvoi_spec {s : Pere (Proc n)} (hn : s.nombreProg1 = n) (hp : s.Pret)
    (hlo : 1 ≤ s.i) (hhi : s.i ≤ 4) (hf : s.faults = Pere.debords n 0) :
    (boucleEnvoi s).Coherent ∧ (boucleEnvoi s).lance = true ∧
      (boucleEnvoi s).envois = s.i.toNat ∧ (boucleEnvoi s).receptions = 0 := by
  unfold boucleEnvoi
  split
  · rename_i hlt
    refine ⟨⟨hn, fun _ => ⟨hlo, hlt⟩, by simp, fun _ => ⟨hp.1, hp.2, hp.3⟩, hf⟩,
      rfl, rfl, rfl⟩
  · rename_i hge
    have hi : s.i.toNat = 4 := by omega
    have h := boucleReception_spec (s := { s with i := 0 }) hn ⟨hp.1, hp.2, hp.3⟩
      (by simp) (by simp) hf
    rw [hi]
    exact h

namespace Pere

variable {s t : Pere (Proc n)} {r : Fin (n + 1)}

theorem etape_envoi (hl : s.lance = true) (he : s.envois = r) (hr : s.receptions = 0)
    (h4 : r.val < 4) (hn : t.nombreProg1 = n) (hp : t.Pret) (hi : t.i = r + 1)
    (hf : t.faults = debords n 0) :
    s.Etape (.send (.fils r) (temperatureDe r) (boucleEnvoi t)) := by
  obtain ⟨hs', hl', he', hr'⟩ := boucleEnvoi_spec hn hp (by omega) (by omega) hf
  exact .envoi hl he hr hs' hl' (by rw [he', hi]; rfl) hr'

/-- A receive of the father takes one acknowledgement; four bytes do not fit in
`return_value`. -/
theorem etape_reception {k : Mpi.Message → Pere (Proc n)} (hl : s.lance = true)
    (he : s.envois = 4) (hr : s.receptions = r) (h4 : r.val < 4)
    (hk : ∀ m, m.length = 4 → ∃ t, k m = boucleReception t ∧ t.nombreProg1 = n ∧
      t.Pret ∧ t.i = r + 1 ∧ t.faults = debords n (r + 1)) :
    s.Etape (.recv (.fils r) k) := by
  refine .reception hl he hr h4 fun m hm => ?_
  obtain ⟨t, ht, hn, hp, hi, hf⟩ := hk m hm
  have hnat : t.i.toNat = r + 1 := by omega
  rw [ht]
  obtain ⟨hs', hl', he', hr'⟩ :=
    boucleReception_spec hn hp (by omega) (by omega) (by rw [hf, hnat])
  exact ⟨hs', hl', he', by rw [hr', hnat]⟩

theorem debords_succ (n k : ℕ) :
    debords n (k + 1) = debords n k ++ [.recv .returnValue k] := by
  simp [debords, List.range_succ]

end Pere

theorem read_int (frame : ℕ → UInt8) (o : Obj 4) :
    (o.read frame (Mpi.sizeofInt * 1)).1 = o.toList := by
  rw [Obj.read_fst_of_le (show Mpi.sizeofInt * 1 ≤ 4 by decide)]
  exact List.take_of_length_le (by simp [Mpi.sizeofInt])

theorem pereEntry_coherent (frame : Frame) :
    (pereEntry (toString n) frame : Pere (Proc n)).Coherent :=
  ⟨atoi_toString n, by simp [pereEntry], by simp [pereEntry],
    by simp [pereEntry, Pere.lance], by simp [pereEntry, Pere.lance]⟩

namespace Pere.Coherent

variable {s : Pere (Proc n)}

theorem faults_of_not_lance (hs : s.Coherent) (hl : s.lance = false) : s.faults = [] := by
  rw [hs.faults, hl]
  rfl

theorem faults_of_lance (hs : s.Coherent) (hl : s.lance = true) :
    s.faults = debords n s.receptions := by
  rw [hs.faults, hl, if_pos rfl]

theorem etape_init (hs : s.Coherent) (hp : s.point = .init) (frame : Frame) :
    s.Etape (jalon1 (enfants n) frame s) := by
  have hl : s.lance = false := by simp [lance, hp]
  have hf := hs.faults_of_not_lance hl
  simp only [jalon1, hp]
  exact .prologue hl ⟨hs.nombreProg1, by simp, by simp, by simp [lance], hf⟩ rfl

theorem etape_commSize (hs : s.Coherent) (hp : s.point = .commSize) (frame : Frame) :
    s.Etape (jalon1 (enfants n) frame s) := by
  have hl : s.lance = false := by simp [lance, hp]
  have hf := hs.faults_of_not_lance hl
  simp only [jalon1, hp, Mpi.commSize_eq]
  exact .prologue hl ⟨hs.nombreProg1, by simp, by simp, by simp [lance],
    by simp [lance, hf, Mpi.sizeofInt]⟩ rfl

/-- The spawn writes `4 * (1 + n)` bytes into the 20 bytes of `errcodes`. -/
theorem etape_commSpawnMultiple (hs : s.Coherent) (hp : s.point = .commSpawnMultiple)
    (frame : Frame) : s.Etape (jalon1 (enfants n) frame s) := by
  have hl : s.lance = false := by simp [lance, hp]
  have hf := hs.faults_of_not_lance hl
  have htotal : (((np s.nombreProg1).toList.take 2).map Int.toNat).sum = 1 + n := by
    simp [hs.nombreProg1, np]
  simp only [jalon1, hp, Mpi.commSpawnMultiple_eq, htotal]
  refine .lancement hl
    ⟨hs.nombreProg1, by simp, by simp, fun _ => ⟨rfl, rfl, rfl⟩, ?_⟩ rfl rfl rfl
  by_cases h4 : 4 < n
  · have hover : 20 < Mpi.sizeofInt * (1 + n) := by
      unfold Mpi.sizeofInt
      omega
    simp [hf, lance, debords, receptions, h4, hover]
  · have hfit : ¬20 < Mpi.sizeofInt * (1 + n) := by
      unfold Mpi.sizeofInt
      omega
    simp [hf, lance, debords, receptions, h4, hfit]

theorem etape_sendAmbiante (hs : s.Coherent) (hp : s.point = .sendAmbiante)
    (frame : Frame) : s.Etape (jalon1 (enfants n) frame s) := by
  have hl : s.lance = true := by simp [lance, hp]
  have hr : s.receptions = 0 := by simp [receptions, hp]
  have hf := hs.faults_of_lance hl
  obtain ⟨hcomm, hamb, hdep⟩ := hs.pret hl
  have hpeer : s.intercomm.bind (·.peer 0) = some (.fils 0) := by
    rw [hcomm]
    exact enfants_peer (Nat.succ_pos n)
  have hmsg : (s.temperatureAmbiante.read (frame .temperatureAmbiante)
      (Mpi.sizeofInt * 1)).1 = temperatureDe (0 : Fin (n + 1)) := by
    rw [read_int, hamb, Obj.toList_ofInt, temperatureDe_zero]
  simp only [jalon1, hp]
  rw [Mpi.send_eq hpeer, hmsg]
  exact etape_envoi hl (by simp [envois, hp]) hr (by simp) hs.nombreProg1
    ⟨hcomm, hamb, hdep⟩ (by simp) (by simp [hf, hr, Mpi.sizeofInt])

theorem etape_sendDepart (hs : s.Coherent) (hle : s.envois ≤ n + 1)
    (hp : s.point = .sendDepart) (frame : Frame) :
    s.Etape (jalon1 (enfants n) frame s) := by
  have hl : s.lance = true := by simp [lance, hp]
  have hr : s.receptions = 0 := by simp [receptions, hp]
  have he : s.envois = s.i.toNat := by simp [envois, hp]
  have hf := hs.faults_of_lance hl
  obtain ⟨hcomm, hamb, hdep⟩ := hs.pret hl
  obtain ⟨hlo, hhi⟩ := hs.sendDepart hp
  obtain ⟨k, hk⟩ : ∃ k : ℕ, s.i = k := ⟨s.i.toNat, by omega⟩
  simp only [jalon1, hp]
  by_cases hlt : k < n + 1
  · have hpeer : s.intercomm.bind (·.peer s.i) = some (.fils ⟨k, hlt⟩) := by
      rw [hcomm, hk]
      exact enfants_peer hlt
    have hmsg : (s.temperatureDepart.read (frame .temperatureDepart)
        (Mpi.sizeofInt * 1)).1 = temperatureDe ⟨k, hlt⟩ := by
      rw [read_int, hdep, Obj.toList_ofInt, temperatureDe_of_pos (show 0 < k by omega)]
    rw [Mpi.send_eq hpeer, hmsg]
    exact etape_envoi hl (by simp [he, hk]) hr (show k < 4 by omega) hs.nombreProg1
      ⟨hcomm, hamb, hdep⟩ (by simp [hk]) (by simp [hf, hr, Mpi.sizeofInt])
  · have hkn : k = n + 1 := by omega
    have hpeer : s.intercomm.bind (·.peer s.i) = none := by
      rw [hcomm, hk]
      exact enfants_peer_of_le (by omega)
    rw [Mpi.send_eq_abort hpeer, hk, hkn]
    exact .erreur (by omega) (by omega)

theorem etape_recv (hs : s.Coherent) (hle : s.envois ≤ n + 1) (hp : s.point = .recv)
    (frame : Frame) : s.Etape (jalon1 (enfants n) frame s) := by
  have hl : s.lance = true := by simp [lance, hp]
  have hr : s.receptions = s.i.toNat := by simp [receptions, hp]
  have he : s.envois = 4 := by simp [envois, hp]
  have hf := hs.faults_of_lance hl
  obtain ⟨hcomm, hamb, hdep⟩ := hs.pret hl
  obtain ⟨hlo, hhi⟩ := hs.recv hp
  obtain ⟨k, hk⟩ : ∃ k : ℕ, s.i = k := ⟨s.i.toNat, by omega⟩
  have hlt : k < n + 1 := by omega
  have hpeer : s.intercomm.bind (·.peer s.i) = some (.fils ⟨k, hlt⟩) := by
    rw [hcomm, hk]
    exact enfants_peer hlt
  simp only [jalon1, hp]
  rw [Mpi.recv_eq hpeer]
  refine etape_reception hl he (by simp [hr, hk]) (show k < 4 by omega) fun m hm => ?_
  refine ⟨_, rfl, hs.nombreProg1, ⟨hcomm, hamb, hdep⟩, by simp [hk], ?_⟩
  have hover : 1 < (m.take (Mpi.sizeofInt * 1)).length := by simp [hm, Mpi.sizeofInt]
  simp only [hover, decide_true, Mpi.faults_true, hf, hr, hk, Int.toNat_natCast]
  exact (debords_succ n k).symm

theorem etape (hs : s.Coherent) (hle : s.envois ≤ n + 1) (frame : Frame) :
    s.Etape (jalon1 (enfants n) frame s) := by
  cases hp : s.point with
  | init => exact hs.etape_init hp frame
  | commSize => exact hs.etape_commSize hp frame
  | commSpawnMultiple => exact hs.etape_commSpawnMultiple hp frame
  | sendAmbiante => exact hs.etape_sendAmbiante hp frame
  | sendDepart => exact hs.etape_sendDepart hle hp frame
  | recv => exact hs.etape_recv hle hp frame
  | finalize =>
      simp only [jalon1, hp]
      exact .fin hp

end Pere.Coherent

/-! ## The children -/

namespace Fils

def recu (f : Fils P) : Bool :=
  match f.point with
  | .send | .finalize => true
  | _ => false

def envoye (f : Fils P) : Bool :=
  match f.point with
  | .finalize => true
  | _ => false

theorem envoye_of_not_recu {f : Fils P} (h : f.recu = false) : f.envoye = false := by
  unfold recu at h
  unfold envoye
  split at h <;> simp_all

theorem recu_of_envoye {f : Fils P} (h : f.envoye = true) : f.recu = true := by
  by_contra hr
  rw [envoye_of_not_recu (by simpa using hr)] at h
  cases h

theorem point_of_envoye {f : Fils P} (h : f.envoye = true) : f.point = .finalize := by
  unfold envoye at h
  split at h
  · assumption
  · cases h

structure Coherent (r : Fin (n + 1)) (f : Fils (Proc n)) : Prop where
  parent : f.point = .commRank ∨ f.point = .recv ∨ f.point = .send →
    f.parent = some (versPere n)
  returnValue : f.returnValue = Example.returnValue
  temperature : f.recu = true → f.temperature.toList = temperatureDe r
  faults : f.faults = if f.envoye then [.send .returnValue 0] else []

inductive Etape (frame : Frame) (r : Fin (n + 1)) (f : Fils (Proc n)) :
    Action (Proc n) Mpi.Message Call (Fils (Proc n)) → Prop
  | prologue {f' : Fils (Proc n)} (hr : f.recu = false) (hf' : f'.Coherent r)
      (hr' : f'.recu = false) : Etape frame r f (.tau f')
  | reception {k : Mpi.Message → Fils (Proc n)} (hp : f.point = .recv) (hr : f.recu = false)
      (hf' : (k (temperatureDe r)).Coherent r) (hr' : (k (temperatureDe r)).recu = true)
      (he' : (k (temperatureDe r)).envoye = false) : Etape frame r f (.recv .pere k)
  | acquittement {f' : Fils (Proc n)} (hr : f.recu = true) (he : f.envoye = false)
      (hf' : f'.Coherent r) (hr' : f'.recu = true) (he' : f'.envoye = true) :
      Etape frame r f (.send .pere (acquittement frame) f')
  | fin (he : f.envoye = true) : Etape frame r f .halt

end Fils

theorem versPere_peer : (versPere n).peer 0 = some .pere :=
  Mpi.Intercomm.peer_of_lt Nat.one_pos

/-- The one byte of `return_value` is followed by three that are not its own. -/
theorem read_returnValue (frame : Frame) :
    (returnValue.read (frame .returnValue) (Mpi.sizeofInt * 1)).1 = acquittement frame := by
  rw [Obj.read_fst_of_lt (by decide)]
  rfl

namespace Fils.Coherent

variable {f : Fils (Proc n)} {r : Fin (n + 1)}

theorem faults_of_not_envoye (hf : f.Coherent r) (he : f.envoye = false) :
    f.faults = [] := by
  rw [hf.faults, he]
  rfl

theorem etape_commRank (hf : f.Coherent r) (hp : f.point = .commRank) (textes : Textes)
    (frame : Frame) : f.Etape frame r (fils textes (some (versPere n)) r frame f) := by
  have he : f.envoye = false := by simp [envoye, hp]
  have hparent := hf.parent (.inl hp)
  have hfaults := hf.faults_of_not_envoye he
  simp only [fils, hp, Mpi.commRank_eq, hparent, Option.isNone_some, Bool.false_eq_true,
    if_false]
  exact .prologue (by simp [recu, hp]) ⟨fun _ => rfl, hf.returnValue, by simp [recu],
    by simp [envoye, hfaults, Mpi.sizeofInt]⟩ rfl

theorem etape_recv (hf : f.Coherent r) (hp : f.point = .recv) (textes : Textes)
    (frame : Frame) : f.Etape frame r (fils textes (some (versPere n)) r frame f) := by
  have he : f.envoye = false := by simp [envoye, hp]
  have hparent := hf.parent (.inr (.inl hp))
  have hfaults := hf.faults_of_not_envoye he
  have hpeer : f.parent.bind (·.peer 0) = some .pere := by
    rw [hparent]
    exact versPere_peer
  have htake : (temperatureDe r).take (Mpi.sizeofInt * 1) = temperatureDe r :=
    List.take_of_length_le (by simp [Mpi.sizeofInt])
  simp only [fils, hp]
  rw [Mpi.recv_eq hpeer]
  refine .reception hp (by simp [recu, hp])
    ⟨fun _ => hparent, hf.returnValue, fun _ => ?_, ?_⟩ rfl rfl
  · simp only [htake]
    rw [Obj.toList_blit (by simp)]
    rfl
  · simp [envoye, hfaults]

theorem etape_send (hf : f.Coherent r) (hp : f.point = .send) (textes : Textes)
    (frame : Frame) : f.Etape frame r (fils textes (some (versPere n)) r frame f) := by
  have he : f.envoye = false := by simp [envoye, hp]
  have hr : f.recu = true := by simp [recu, hp]
  have hparent := hf.parent (.inr (.inr hp))
  have hfaults := hf.faults_of_not_envoye he
  have hpeer : f.parent.bind (·.peer 0) = some .pere := by
    rw [hparent]
    exact versPere_peer
  have hmsg : (f.returnValue.read (frame .returnValue) (Mpi.sizeofInt * 1)).1 =
      acquittement frame := by
    rw [hf.returnValue, read_returnValue]
  simp only [fils, hp]
  rw [Mpi.send_eq hpeer, hmsg]
  exact .acquittement hr he ⟨by simp, hf.returnValue, fun _ => hf.temperature hr,
    by simp [envoye, hfaults, Mpi.sizeofInt]⟩ rfl rfl

theorem etape_fils (hf : f.Coherent r) (textes : Textes) (frame : Frame) :
    f.Etape frame r (fils textes (some (versPere n)) r frame f) := by
  cases hp : f.point with
  | init =>
      have he : f.envoye = false := by simp [envoye, hp]
      simp only [fils, hp]
      exact .prologue (by simp [recu, hp])
        ⟨by simp, hf.returnValue, by simp [recu], hf.faults_of_not_envoye he⟩ rfl
  | commGetParent =>
      have he : f.envoye = false := by simp [envoye, hp]
      simp only [fils, hp]
      exact .prologue (by simp [recu, hp])
        ⟨fun _ => rfl, hf.returnValue, by simp [recu], hf.faults_of_not_envoye he⟩ rfl
  | commRank => exact hf.etape_commRank hp textes frame
  | recv => exact hf.etape_recv hp textes frame
  | send => exact hf.etape_send hp textes frame
  | finalize =>
      simp only [fils, hp]
      exact .fin (by simp [envoye, hp])

theorem etape (hf : f.Coherent r) (frame : Frame) :
    f.Etape frame r (code (programme r) (some (versPere n)) r frame f) := by
  cases programme r with
  | coordinateur => exact hf.etape_fils _ frame
  | prg1 => exact hf.etape_fils _ frame

end Fils.Coherent

theorem filsEntry_coherent (r : Fin (n + 1)) (frame : Frame) :
    (filsEntry frame : Fils (Proc n)).Coherent r :=
  ⟨by simp [filsEntry], rfl, by simp [filsEntry, Fils.recu], rfl⟩

end ProgPara.Example
