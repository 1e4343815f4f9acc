import SlpServer.Plugin.Traffic
import Mathlib.Algebra.Ring.Int.Defs
import Mathlib.Data.List.Induction

/-!
# What the traffic plugin counts

Operations on the counters fall into windows: those between two calls of
`clear_traffic`, and the running one behind the last.  `counted` is what the
plugin holds and has returned after some operations, by windows
(`run_eq_counted`): the totals of each window, modulo 2^32.

* `trafficInfo_iff`: a query answers with the running window, although the last
  one is kept beside it.
* `conserved_iff`: nothing is lost as long as no window exceeds what an `i32`
  holds.
-/

namespace SlpServer

open Rust

namespace TrafficPlugin

/-! ### Operations -/

inductive Op
  | inPacket (packet : InPacket)
  | outPacket (packet : Packet) (addrs : List SocketAddr)
  | clearTraffic

/-- One operation, with the snapshot it returns if it is `clear_traffic`. -/
def Inner.apply (checks : Bool) (self : Inner) : Op → Exec (List TrafficInfo × Inner)
  | .inPacket packet => do pure ([], ← self.inPacket checks packet)
  | .outPacket packet addrs => do pure ([], ← self.outPacket checks packet addrs)
  | .clearTraffic => pure ([self.clearTraffic.1], self.clearTraffic.2)

/-- The operations one after the other, with the snapshots returned. -/
def Inner.run (checks : Bool) (self : Inner) (ops : List Op) : Exec (List TrafficInfo × Inner) :=
  ops.foldlM (fun r op => do
    let (snapshots, self) ← r.2.apply checks op
    pure (r.1 ++ snapshots, self)) ([], self)

theorem run_concat (checks : Bool) (inner : Inner) (ops : List Op) (op : Op) :
    inner.run checks (ops ++ [op]) = (do
      let r ← inner.run checks ops
      let (snapshots, inner) ← r.2.apply checks op
      pure (r.1 ++ snapshots, inner)) := by
  rw [Inner.run, List.foldlM_append]
  simp only [List.foldlM_cons, List.foldlM_nil, bind_pure]
  rfl

/-! ### Totals -/

/-- The four counters. -/
inductive Counter
  | upload
  | download
  | uploadPacket
  | downloadPacket
  deriving DecidableEq, Repr

def Counter.get : Counter → TrafficInfo → Int32
  | .upload => TrafficInfo.upload
  | .download => TrafficInfo.download
  | .uploadPacket => TrafficInfo.uploadPacket
  | .downloadPacket => TrafficInfo.downloadPacket

/-- What an operation adds to a counter. -/
def Op.amount : Op → Counter → Nat
  | .inPacket packet, .download => packet.data.length
  | .inPacket _, .downloadPacket => 1
  | .outPacket packet addrs, .upload => packet.length * addrs.length
  | .outPacket _ _, .uploadPacket => 1
  | _, _ => 0

def total (c : Counter) (ops : List Op) : Nat := (ops.map fun op => op.amount c).sum

/-- The counters after some operations on empty ones. -/
def info (ops : List Op) : TrafficInfo where
  upload := asI32 (total .upload ops)
  download := asI32 (total .download ops)
  uploadPacket := asI32 (total .uploadPacket ops)
  downloadPacket := asI32 (total .downloadPacket ops)

theorem get_info (c : Counter) (ops : List Op) : c.get (info ops) = asI32 (total c ops) := by
  cases c <;> rfl

theorem eq_iff_get {i j : TrafficInfo} : i = j ↔ ∀ c : Counter, c.get i = c.get j := by
  constructor
  · rintro rfl c
    rfl
  · intro h
    obtain ⟨_, _, _, _⟩ := i
    obtain ⟨_, _, _, _⟩ := j
    exact TrafficInfo.mk.injEq .. ▸ ⟨h .upload, h .download, h .uploadPacket, h .downloadPacket⟩

theorem total_concat (c : Counter) (ops : List Op) (op : Op) :
    total c (ops ++ [op]) = total c ops + op.amount c := by
  rw [total, List.map_append, List.sum_append]
  simp [total]

theorem get_info_concat (c : Counter) (ops : List Op) (op : Op) :
    c.get (info (ops ++ [op])) = c.get (info ops) + asI32 (op.amount c) := by
  rw [get_info, get_info, total_concat, asI32_add]

/-! ### One operation -/

/-- **What counting a packet does**: its amounts are added to the running window,
in each of the counters. -/
theorem apply_adds {checks : Bool} {inner : Inner} {op : Op} {r : List TrafficInfo × Inner}
    (hop : op ≠ .clearTraffic) (h : inner.apply checks op = .ok r) : r.1 = [] ∧ r.2.2 = inner.2 ∧
      ∀ c : Counter, addI32 checks (c.get inner.1) (asI32 (op.amount c)) = .ok (c.get r.2.1) := by
  cases op with
  | clearTraffic => exact absurd rfl hop
  | inPacket packet =>
    obtain ⟨_, hinner, ⟨⟩⟩ := bind_eq_ok.mp h
    obtain ⟨_, ht, ⟨⟩⟩ := bind_eq_ok.mp hinner
    obtain ⟨_, hbytes, ht⟩ := bind_eq_ok.mp ht
    obtain ⟨_, hpackets, ⟨⟩⟩ := bind_eq_ok.mp ht
    refine ⟨rfl, rfl, fun c => ?_⟩
    cases c with
    | upload | uploadPacket => exact addI32_zero checks _
    | download => exact hbytes
    | downloadPacket => exact hpackets
  | outPacket packet addrs =>
    obtain ⟨_, hinner, ⟨⟩⟩ := bind_eq_ok.mp h
    obtain ⟨size, hsize, hinner⟩ := bind_eq_ok.mp hinner
    obtain ⟨_, ht, ⟨⟩⟩ := bind_eq_ok.mp hinner
    obtain ⟨_, hbytes, ht⟩ := bind_eq_ok.mp ht
    obtain ⟨_, hpackets, ⟨⟩⟩ := bind_eq_ok.mp ht
    rw [asI32_mulUsize hsize] at hbytes
    refine ⟨rfl, rfl, fun c => ?_⟩
    cases c with
    | download | downloadPacket => exact addI32_zero checks _
    | upload => exact hbytes
    | uploadPacket => exact hpackets

theorem apply_eq_ok {checks : Bool} {w : List Op} {last : TrafficInfo} {op : Op}
    {r : List TrafficInfo × Inner} (hop : op ≠ .clearTraffic)
    (h : Inner.apply checks (info w, last) op = .ok r) : r = ([], (info (w ++ [op]), last)) := by
  obtain ⟨snapshots, running, last'⟩ := r
  obtain ⟨rfl, rfl, hadds⟩ := apply_adds hop h
  have hrunning : running = info (w ++ [op]) := by
    rw [eq_iff_get]
    intro c
    rw [get_info_concat]
    exact addI32_eq_ok (hadds c)
  rw [hrunning]

/-- What an `i32` holds of every counter. -/
def Fits (w : List Op) : Prop := ∀ c, total c w ≤ 2 ^ 31 - 1

theorem Fits.lt {w : List Op} (h : Fits w) (c : Counter) : total c w < 2 ^ 31 :=
  Nat.lt_of_le_pred (by decide) (h c)

theorem onUpload_returns (checks : Bool) {w : List Op} {n : Nat}
    (hbytes : total .upload w + n < 2 ^ 31) (hpackets : total .uploadPacket w + 1 < 2 ^ 31) :
    Returns ((info w).onUpload checks (asI32 n)) := by
  refine Returns.bind ⟨_, addI32_asI32 checks hbytes⟩ fun _ _ => ?_
  exact Returns.bind ⟨_, addI32_asI32 checks hpackets⟩ fun _ _ => returns_pure _

theorem onDownload_returns (checks : Bool) {w : List Op} {n : Nat}
    (hbytes : total .download w + n < 2 ^ 31) (hpackets : total .downloadPacket w + 1 < 2 ^ 31) :
    Returns ((info w).onDownload checks (asI32 n)) := by
  refine Returns.bind ⟨_, addI32_asI32 checks hbytes⟩ fun _ _ => ?_
  exact Returns.bind ⟨_, addI32_asI32 checks hpackets⟩ fun _ _ => returns_pure _

/-- A packet that fits is counted, in every build. -/
theorem apply_ok (checks : Bool) {w : List Op} (last : TrafficInfo) {op : Op}
    (hop : op ≠ .clearTraffic) (h : Fits (w ++ [op])) :
    Inner.apply checks (info w, last) op = .ok ([], (info (w ++ [op]), last)) := by
  have hlt (c : Counter) : total c w + op.amount c < 2 ^ 31 := by
    rw [← total_concat]
    exact h.lt c
  suffices hreturns : Returns (Inner.apply checks (info w, last) op) by
    obtain ⟨r, hr⟩ := hreturns
    rw [hr, apply_eq_ok hop hr]
  cases op with
  | clearTraffic => exact absurd rfl hop
  | inPacket packet =>
    refine Returns.bind (Returns.bind ?_ fun _ _ => returns_pure _) fun _ _ => returns_pure _
    exact onDownload_returns checks (hlt .download) (hlt .downloadPacket)
  | outPacket packet addrs =>
    have hsize : packet.length * addrs.length < 2 ^ 64 := by
      have hupload : total .upload w + packet.length * addrs.length < 2 ^ 31 := hlt .upload
      omega
    refine Returns.bind ?_ fun _ _ => returns_pure _
    rw [Inner.outPacket, mulUsize_ok checks hsize, ok_bind]
    refine Returns.bind ?_ fun _ _ => returns_pure _
    exact onUpload_returns checks (hlt .upload) (hlt .uploadPacket)

/-! ### Windows -/

/-- The windows that are completed, and the running one. -/
abbrev Windows := List (List Op) × List Op

def Windows.add (self : Windows) : Op → Windows
  | .clearTraffic => (self.1 ++ [self.2], [])
  | op => (self.1, self.2 ++ [op])

/-- Operations by windows: `clear_traffic` completes one. -/
def windows (ops : List Op) : Windows := ops.foldl Windows.add ([], [])

theorem windows_concat (ops : List Op) (op : Op) :
    windows (ops ++ [op]) = (windows ops).add op := by
  rw [windows, List.foldl_append]
  rfl

theorem add_of_ne {ws : Windows} {op : Op} (h : op ≠ .clearTraffic) :
    ws.add op = (ws.1, ws.2 ++ [op]) := by
  cases op with
  | clearTraffic => exact absurd rfl h
  | inPacket packet | outPacket packet addrs => rfl

/-- The last completed window, which is empty before the first. -/
def Windows.last (self : Windows) : List Op := self.1.getLast?.getD []

/-- What the plugin has returned and holds, by windows. -/
def counted (ws : Windows) : List TrafficInfo × Inner := (ws.1.map info, (info ws.2, info ws.last))

theorem apply_counted {checks : Bool} {ws : Windows} {op : Op} {r : List TrafficInfo × Inner}
    (h : Inner.apply checks (counted ws).2 op = .ok r) :
    ((counted ws).1 ++ r.1, r.2) = counted (ws.add op) := by
  by_cases hop : op = .clearTraffic
  · subst hop
    cases h
    show ((ws.1.map info) ++ [info ws.2], _) = counted (ws.1 ++ [ws.2], [])
    simp only [counted, Windows.last, List.map_append, List.getLast?_concat]
    rfl
  · rw [apply_eq_ok hop h, add_of_ne hop, List.append_nil]
    rfl

/-- **What the plugin has counted**: the totals of the windows, modulo 2^32. -/
theorem run_eq_counted {checks : Bool} {ops : List Op} {r : List TrafficInfo × Inner}
    (h : Inner.new.run checks ops = .ok r) : r = counted (windows ops) := by
  induction ops using List.reverseRecOn generalizing r with
  | nil =>
    cases h
    rfl
  | append_singleton ops op ih =>
    rw [run_concat] at h
    obtain ⟨r₁, hr₁, h⟩ := bind_eq_ok.mp h
    obtain ⟨r₂, hr₂, ⟨⟩⟩ := bind_eq_ok.mp h
    rw [ih hr₁] at hr₂ ⊢
    rw [windows_concat, ← apply_counted hr₂]

/-! ### Queries -/

/-- The value of the last `clear_traffic` is kept, beside the running window. -/
theorem snd_eq_last {checks : Bool} {ops : List Op} {snapshots : List TrafficInfo} {inner : Inner}
    (h : Inner.new.run checks ops = .ok (snapshots, inner)) :
    inner.2 = snapshots.getLast?.getD .new := by
  obtain ⟨rfl, rfl⟩ := Prod.mk.inj (run_eq_counted h)
  show info (windows ops).last = ((windows ops).1.map info).getLast?.getD .new
  rw [List.getLast?_map, Windows.last]
  cases (windows ops).1.getLast? <;> rfl

/-- **What a query answers**: the value of the last `clear_traffic`, all zero
before the first, exactly when the running window has the same totals as the
last one, modulo 2^32. -/
theorem trafficInfo_iff {checks : Bool} {ops : List Op} {snapshots : List TrafficInfo}
    {inner : Inner} (h : Inner.new.run checks ops = .ok (snapshots, inner)) :
    inner.trafficInfo = snapshots.getLast?.getD .new ↔
      ∀ c, total c (windows ops).2 % 2 ^ 32 = total c (windows ops).last % 2 ^ 32 := by
  rw [← snd_eq_last h]
  obtain ⟨rfl, rfl⟩ := Prod.mk.inj (run_eq_counted h)
  show info (windows ops).2 = info (windows ops).last ↔ _
  rw [eq_iff_get]
  simp only [get_info, asI32_eq_iff]

/-- A datagram of one byte. -/
def oneByte : InPacket := ⟨[0], .v4 ⟨192, 168, 1, 2⟩ 4000⟩

theorem trafficInfo_steady : Inner.trafficInfo (⟨0, 1, 0, 1⟩, ⟨0, 1, 0, 1⟩) = ⟨0, 1, 0, 1⟩ :=
  (@trafficInfo_iff true [.inPacket oneByte, .clearTraffic, .inPacket oneByte]
    [⟨0, 1, 0, 1⟩] (⟨0, 1, 0, 1⟩, ⟨0, 1, 0, 1⟩) rfl).mpr fun c => by cases c <;> rfl

theorem trafficInfo_cleared : ¬ ∀ (checks : Bool) (ops : List Op) (snapshots : List TrafficInfo)
    (inner : Inner), Inner.new.run checks ops = .ok (snapshots, inner) →
      inner.trafficInfo = snapshots.getLast?.getD .new := by
  intro h
  have hquery := h true [.inPacket oneByte, .clearTraffic] [⟨0, 1, 0, 1⟩]
    (.new, ⟨0, 1, 0, 1⟩) rfl
  exact absurd hquery (by decide)

/-! ### Conservation -/

/-- The windows of some operations, the running one included. -/
def allWindows (ops : List Op) : List (List Op) := (windows ops).1 ++ [(windows ops).2]

/-- No window exceeds what an `i32` holds. -/
def AllFit (ops : List Op) : Prop := ∀ w ∈ allWindows ops, Fits w

theorem allFit_iff {ops : List Op} :
    AllFit ops ↔ (∀ w ∈ (windows ops).1, Fits w) ∧ Fits (windows ops).2 := by
  simp only [AllFit, allWindows, List.forall_mem_append, List.mem_singleton, forall_eq]

theorem fits_nil : Fits [] := fun _ => Nat.zero_le _

theorem Fits.of_concat {w : List Op} {op : Op} (h : Fits (w ++ [op])) : Fits w := by
  intro c
  have hc := h c
  rw [total_concat] at hc
  omega

theorem AllFit.of_concat {ops : List Op} {op : Op} (h : AllFit (ops ++ [op])) : AllFit ops := by
  rw [allFit_iff, windows_concat] at h
  rw [allFit_iff]
  by_cases hop : op = .clearTraffic
  · subst hop
    exact ⟨fun w hw => h.1 w (List.mem_append_left _ hw), h.1 _ (List.mem_append_right _ (by simp))⟩
  · rw [add_of_ne hop] at h
    exact ⟨h.1, h.2.of_concat⟩

theorem AllFit.of_prefix {pre ops : List Op} (h : AllFit ops) (hpre : pre <+: ops) :
    AllFit pre := by
  obtain ⟨post, rfl⟩ := hpre
  induction post using List.reverseRecOn with
  | nil => rwa [List.append_nil] at h
  | append_singleton post op ih =>
    rw [← List.append_assoc] at h
    exact ih h.of_concat

theorem run_ok (checks : Bool) {ops : List Op} (h : AllFit ops) :
    Inner.new.run checks ops = .ok (counted (windows ops)) := by
  induction ops using List.reverseRecOn with
  | nil => rfl
  | append_singleton ops op ih =>
    have hreturns : Returns (Inner.apply checks (counted (windows ops)).2 op) := by
      by_cases hop : op = .clearTraffic
      · subst hop
        exact returns_ok _
      · rw [allFit_iff, windows_concat, add_of_ne hop] at h
        exact ⟨_, apply_ok checks _ hop h.2⟩
    obtain ⟨r, hr⟩ := hreturns
    rw [run_concat, ih h.of_concat, ok_bind, hr, ok_bind, windows_concat, ← apply_counted hr]
    rfl

theorem total_windows (c : Counter) (ops : List Op) :
    total c ops = ((windows ops).1.map (total c)).sum + total c (windows ops).2 := by
  induction ops using List.reverseRecOn with
  | nil => rfl
  | append_singleton ops op ih =>
    rw [total_concat, windows_concat, ih]
    by_cases hop : op = .clearTraffic
    · subst hop
      show _ = (((windows ops).1 ++ [(windows ops).2]).map (total c)).sum + 0
      rw [List.map_append, List.sum_append]
      simp [Op.amount]
    · rw [add_of_ne hop]
      dsimp only
      rw [total_concat, Nat.add_assoc]

/-- All snapshots and the running window, of one counter. -/
def sumOf (c : Counter) (r : List TrafficInfo × Inner) : Int :=
  (r.1.map fun i => (c.get i).toInt).sum + (c.get r.2.1).toInt

/-- The casts of an operation lose nothing. -/
def Op.CastsExactly (op : Op) : Prop := ∀ c, (asI32 (op.amount c)).toInt = op.amount c

/-- Checked arithmetic does not panic, the casts are exact, the snapshots with the
running window are the totals, and nothing that was held or returned on the way
is negative. -/
structure Conserved (ops : List Op) (r : List TrafficInfo × Inner) : Prop where
  checked : Inner.new.run true ops = .ok r
  unchecked : Inner.new.run false ops = .ok r
  casts : ∀ op ∈ ops, op.CastsExactly
  sum : ∀ c, sumOf c r = total c ops
  nonneg : ∀ pre, pre <+: ops → ∀ r', Inner.new.run true pre = .ok r' →
    ∀ i ∈ r'.2.1 :: r'.2.2 :: r'.1, ∀ c : Counter, 0 ≤ (c.get i).toInt

theorem toInt_get_info {w : List Op} (h : Fits w) (c : Counter) :
    (c.get (info w)).toInt = total c w := by
  rw [get_info, toInt_asI32 (h.lt c)]

theorem sumOf_counted (ws : Windows) (h : ∀ w ∈ ws.1, Fits w) (c : Counter) :
    sumOf c (counted ws) = (ws.1.map (total c)).sum + (c.get (info ws.2)).toInt := by
  have hsum : ((ws.1.map info).map fun i => (c.get i).toInt).sum =
      ((ws.1.map (total c)).sum : Nat) := by
    obtain ⟨done, running⟩ := ws
    dsimp only at h ⊢
    induction done with
    | nil => rfl
    | cons w done ih =>
      have ⟨hw, hdone⟩ := List.forall_mem_cons.mp h
      simp only [List.map_cons, List.sum_cons, toInt_get_info hw, ih hdone, Int.natCast_add]
  rw [sumOf, counted, hsum]

theorem castsExactly_of_lt {op : Op} (h : ∀ c, op.amount c < 2 ^ 31) : op.CastsExactly :=
  fun c => toInt_asI32 (h c)

theorem casts_of_allFit {ops : List Op} (h : AllFit ops) : ∀ op ∈ ops, op.CastsExactly := by
  induction ops using List.reverseRecOn with
  | nil => simp
  | append_singleton ops op ih =>
    intro o ho
    rcases List.mem_append.mp ho with ho | ho
    · exact ih h.of_concat o ho
    · obtain rfl := List.mem_singleton.mp ho
      apply castsExactly_of_lt
      intro c
      by_cases hop : o = .clearTraffic
      · subst hop
        exact Nat.two_pow_pos 31
      · rw [allFit_iff, windows_concat, add_of_ne hop] at h
        have hlt := h.2.lt c
        rw [total_concat] at hlt
        omega

/-- What the plugin holds and has returned are windows that fit. -/
theorem exists_fits_of_mem {ops : List Op} (h : AllFit ops) {i : TrafficInfo}
    (hi : i ∈ (counted (windows ops)).2.1 :: (counted (windows ops)).2.2 ::
      (counted (windows ops)).1) : ∃ w, Fits w ∧ info w = i := by
  obtain ⟨hdone, hrunning⟩ := allFit_iff.mp h
  rcases List.mem_cons.mp hi with rfl | hi
  · exact ⟨_, hrunning, rfl⟩
  rcases List.mem_cons.mp hi with rfl | hi
  · refine ⟨(windows ops).last, ?_, rfl⟩
    rw [Windows.last]
    cases hlast : (windows ops).1.getLast? with
    | none => exact fits_nil
    | some w => exact hdone w (List.mem_of_getLast? hlast)
  · obtain ⟨w, hw, rfl⟩ := List.mem_map.mp hi
    exact ⟨w, hdone w hw, rfl⟩

/-- **Where every window fits, nothing is lost.** -/
theorem conserved_of_allFit {ops : List Op} (h : AllFit ops) :
    Conserved ops (counted (windows ops)) where
  checked := run_ok true h
  unchecked := run_ok false h
  casts := casts_of_allFit h
  sum c := by
    obtain ⟨hdone, hrunning⟩ := allFit_iff.mp h
    rw [sumOf_counted _ hdone, toInt_get_info hrunning, total_windows c ops, Int.natCast_add]
  nonneg pre hpre r hr i hi c := by
    obtain ⟨w, hw, rfl⟩ := exists_fits_of_mem (h.of_prefix hpre) (run_eq_counted hr ▸ hi)
    rw [toInt_get_info hw]
    exact Int.natCast_nonneg _

/-- A sum that is checked is exact, in each of the counters. -/
theorem toInt_get_info_concat {w : List Op} {last : TrafficInfo} {op : Op}
    {r : List TrafficInfo × Inner} (hop : op ≠ .clearTraffic)
    (h : Inner.apply true (info w, last) op = .ok r) (c : Counter) :
    (c.get (info (w ++ [op]))).toInt =
      (c.get (info w)).toInt + (asI32 (op.amount c)).toInt := by
  rw [get_info_concat]
  exact toInt_addI32 ((apply_adds hop h).2.2 c)

/-- **Without overflow every window fits**: neither an addition nor a cast of its
operations has lost anything. -/
theorem allFit_of_checked {ops : List Op} {r : List TrafficInfo × Inner}
    (h : Inner.new.run true ops = .ok r) (hcasts : ∀ op ∈ ops, op.CastsExactly) :
    AllFit ops := by
  induction ops using List.reverseRecOn generalizing r with
  | nil => exact allFit_iff.mpr ⟨by simp [windows], fits_nil⟩
  | append_singleton ops op ih =>
    rw [run_concat] at h
    obtain ⟨r₁, hr₁, h⟩ := bind_eq_ok.mp h
    obtain ⟨r₂, hr₂, _⟩ := bind_eq_ok.mp h
    have hbefore := ih hr₁ fun o ho => hcasts o (List.mem_append_left _ ho)
    obtain ⟨hdone, hrunning⟩ := allFit_iff.mp hbefore
    rw [run_eq_counted hr₁] at hr₂
    rw [allFit_iff, windows_concat]
    by_cases hop : op = .clearTraffic
    · subst hop
      refine ⟨?_, fits_nil⟩
      intro w hw
      rcases List.mem_append.mp hw with hw | hw
      · exact hdone w hw
      · obtain rfl := List.mem_singleton.mp hw
        exact hrunning
    · rw [add_of_ne hop]
      refine ⟨hdone, fun c => ?_⟩
      have hexact := toInt_get_info_concat hop hr₂ c
      rw [toInt_get_info hrunning, hcasts op (by simp) c] at hexact
      have hlt := (c.get (info ((windows ops).2 ++ [op]))).toInt_lt
      rw [total_concat]
      omega

/-- **When traffic is conserved**: exactly when in no window a total exceeds what
an `i32` holds. -/
theorem conserved_iff (ops : List Op) : (∃ r, Conserved ops r) ↔ AllFit ops := by
  constructor
  · rintro ⟨r, hr⟩
    exact allFit_of_checked hr.checked hr.casts
  · intro h
    exact ⟨_, conserved_of_allFit h⟩

/-- A frame of `size` bytes for `clients` clients. -/
def fanOut (size clients : Nat) : Op :=
  .outPacket (List.replicate size 0) (List.replicate clients (.v4 ⟨192, 168, 1, 2⟩ 4000))

theorem total_fanOut (size clients : Nat) :
    total .upload [fanOut size clients] = size * clients := by
  show (List.replicate size _).length * (List.replicate clients _).length + 0 = _
  rw [List.length_replicate, List.length_replicate, Nat.add_zero]

/-- A frame of 2048 bytes for 2^20 clients. -/
theorem not_conserved_fanOut : ¬ ∀ ops : List Op,
    (∀ packet, .inPacket packet ∈ ops → packet.data.length ≤ 65536) → ∃ r, Conserved ops r := by
  intro h
  have hpackets : ∀ packet, .inPacket packet ∈ [fanOut 2048 1048576] →
      packet.data.length ≤ 65536 := by
    intro packet hmem
    cases List.mem_singleton.mp hmem
  obtain ⟨r, hr⟩ := h _ hpackets
  have hfit := allFit_of_checked hr.checked hr.casts
  have hle : total .upload [fanOut 2048 1048576] ≤ 2 ^ 31 - 1 := (allFit_iff.mp hfit).2 .upload
  rw [total_fanOut] at hle
  exact absurd hle (by decide)

end TrafficPlugin

end SlpServer
