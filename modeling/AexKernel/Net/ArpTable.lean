import AexKernel.Basic
import AexKernel.Library.Refinement
import AexKernel.Net.TcpHeader

/-! # The ARP cache (`layer/link/arp/table.cpp`)

`m_entries` are the addresses that are known, `m_queries` those that are being asked for. -/

namespace AexKernel.Net

open Library List Function

/-- `mac_addr`. -/
abbrev MacAddr := BitVec 48

/-- `to_arp_uuid(ARP_ETHERNET, ETH_IPv4)`. -/
def arpEthIPv4 : BitVec 32 := 1 + (0x0800 <<< 16)

/-- `ARP_REFRESH_NS`. -/
def arpRefreshNs : BitVec 64 := 10000000000
/-- `ARP_TIMEOUT_NS`. -/
def arpTimeoutNs : BitVec 64 := 15000000000
/-- `ARP_INTERVAL_NS`. -/
def arpIntervalNs : BitVec 64 := 1000000000
/-- `ARP_RETRIES`. -/
def arpRetries : ℕ := 5

/-- `arp_entry`. -/
structure ArpEntry where
  uuid : BitVec 32
  setAt : BitVec 64
  updating : Bool
  ipv4 : IPv4Addr
  mac : MacAddr
  deriving DecidableEq, Repr

/-- `arp_query`. -/
structure ArpQuery where
  uuid : BitVec 32
  retryAt : BitVec 64
  retries : ℕ
  ipv4 : IPv4Addr
  deriving DecidableEq, Repr

/-- `ARPTable`. -/
structure ArpTable where
  entries : List ArpEntry := []
  queries : List ArpQuery := []
  deriving DecidableEq, Repr

/-- A call, with the time that it reads. -/
inductive ArpCall
  | getMac (ipv4 : IPv4Addr) (time : BitVec 64)
  /-- A new entry does not initialise `updating`. -/
  | setMac (ipv4 : IPv4Addr) (mac : MacAddr) (time : BitVec 64) (updating : Bool)
  | loopPass (time : BitVec 64)

def ArpQuery.isFor (ipv4 : IPv4Addr) (q : ArpQuery) : Bool := q.uuid = arpEthIPv4 ∧ q.ipv4 = ipv4

namespace ArpTable

/-- `query_mac`. -/
def queryMac (t : ArpTable) (ipv4 : IPv4Addr) : ArpTable :=
  if t.queries.any (ArpQuery.isFor ipv4) then t
  else { t with queries := t.queries ++ [⟨arpEthIPv4, 0, 0, ipv4⟩] }

/-- What `get_mac` does with the entry for the address, which stands at the index `i`. -/
def useEntry (t : ArpTable) (ipv4 : IPv4Addr) (time : BitVec 64) (i : ℕ) (entry : ArpEntry) :
    Option MacAddr × ArpTable :=
  if arpTimeoutNs < time - entry.setAt then
    (none, { t with queries := t.queries.eraseIdx i }.queryMac ipv4)
  else if arpRefreshNs < time - entry.setAt then
    (some entry.mac,
      { t with entries := t.entries.set i { entry with updating := true } }.queryMac ipv4)
  else (some entry.mac, t)

/-- The loop of `get_mac` over the entries from the index `i` on. -/
def getMacLoop (t : ArpTable) (ipv4 : IPv4Addr) (time : BitVec 64) :
    ℕ → List ArpEntry → Option MacAddr × ArpTable
  | _, [] => (none, t.queryMac ipv4)
  | i, entry :: rest =>
    if entry.uuid ≠ arpEthIPv4 then t.getMacLoop ipv4 time (i + 1) rest
    else if entry.ipv4 = ipv4 then t.useEntry ipv4 time i entry
    else t.getMacLoop ipv4 time (i + 1) rest

/-- `get_mac`. -/
def getMac (t : ArpTable) (ipv4 : IPv4Addr) (time : BitVec 64) : Option MacAddr × ArpTable :=
  t.getMacLoop ipv4 time 0 t.entries

/-- The loop of `set_mac` over the entries. -/
def setEntry (ipv4 : IPv4Addr) (mac : MacAddr) (time : BitVec 64) (updating : Bool) :
    List ArpEntry → List ArpEntry
  | [] => [⟨arpEthIPv4, time, updating, ipv4, mac⟩]
  | entry :: rest =>
    if entry.uuid = arpEthIPv4 ∧ entry.ipv4 = ipv4 then
      { entry with setAt := time, updating := false, mac := mac } :: rest
    else entry :: setEntry ipv4 mac time updating rest

/-- `set_mac`: the queries for the address are erased. -/
def setMac (t : ArpTable) (ipv4 : IPv4Addr) (mac : MacAddr) (time : BitVec 64) (updating : Bool) :
    ArpTable where
  entries := setEntry ipv4 mac time updating t.entries
  queries := t.queries.filter fun q => !ArpQuery.isFor ipv4 q

/-- What a pass of `loop` does with a query. -/
def retry (time : BitVec 64) (q : ArpQuery) : Option ArpQuery :=
  if time < q.retryAt then some q
  else if q.retries = arpRetries then none
  else some { q with retryAt := time + arpIntervalNs, retries := q.retries + 1 }

/-- A pass of `loop`. -/
def loopPass (t : ArpTable) (time : BitVec 64) : ArpTable :=
  { t with queries := t.queries.filterMap (retry time) }

def after (t : ArpTable) : ArpCall → ArpTable
  | .getMac ipv4 time => (t.getMac ipv4 time).2
  | .setMac ipv4 mac time updating => t.setMac ipv4 mac time updating
  | .loopPass time => t.loopPass time

def step (t : ArpTable) (call : ArpCall) : Except Fault ArpTable := .ok (t.after call)

end ArpTable

/-! ## What is to hold -/

/-- The time of the last call, and the last `set_mac` of every address with its time. -/
structure ArpHistory where
  now : BitVec 64 := 0
  latest : IPv4Addr → Option (MacAddr × BitVec 64) := fun _ => none

def ArpCall.time : ArpCall → BitVec 64
  | .getMac _ time | .setMac _ _ time _ | .loopPass time => time

def ArpHistory.after (h : ArpHistory) : ArpCall → ArpHistory
  | .setMac ipv4 mac time _ =>
    { now := time, latest := Function.update h.latest ipv4 (some (mac, time)) }
  | call => { h with now := call.time }

namespace ArpTable

def Timely (p : ArpTable × ArpHistory) (call : ArpCall) : Prop := p.2.now ≤ call.time
deriving Decidable

def Expired (time : BitVec 64) (e : ArpEntry) : Prop := arpTimeoutNs < time - e.setAt
deriving Decidable

/-- A call of `get_mac` finds an entry that has expired. -/
def FindsExpired (t : ArpTable) : ArpCall → Prop
  | .getMac ipv4 time => ∃ e ∈ t.entries, e.ipv4 = ipv4 ∧ Expired time e
  | _ => False

/-- A call changes nothing that belongs to another address than its own. -/
structure KeepsOthers (t t' : ArpTable) (ipv4 : IPv4Addr) : Prop where
  entries : t'.entries.filter (·.ipv4 ≠ ipv4) = t.entries.filter (·.ipv4 ≠ ipv4)
  queries : t'.queries.filter (·.ipv4 ≠ ipv4) = t.queries.filter (·.ipv4 ≠ ipv4)

/-- What a call may do: it keeps to its address, `get_mac` removes an entry that has expired, and a
pass of the loop gives up only queries that have been sent often enough. -/
def Respects (t : ArpTable) : ArpCall → Prop
  | .getMac ipv4 time => KeepsOthers t (t.getMac ipv4 time).2 ipv4 ∧
      ∀ e ∈ t.entries, e.ipv4 = ipv4 → Expired time e →
        ∀ e' ∈ (t.getMac ipv4 time).2.entries, e'.ipv4 ≠ ipv4
  | .setMac ipv4 mac time updating => KeepsOthers t (t.setMac ipv4 mac time updating) ipv4
  | .loopPass time => (t.loopPass time).entries = t.entries ∧
      ∀ q ∈ t.queries, q.retries ≠ arpRetries →
        ∃ q' ∈ (t.loopPass time).queries, q'.ipv4 = q.ipv4

/-! ## Calls -/

/-- The table and its history. -/
structure Sound (t : ArpTable) (h : ArpHistory) : Prop where
  entryUuid : ∀ e ∈ t.entries, e.uuid = arpEthIPv4
  queryUuid : ∀ q ∈ t.queries, q.uuid = arpEthIPv4
  entries : (t.entries.map ArpEntry.ipv4).Nodup
  queries : (t.queries.map ArpQuery.ipv4).Nodup
  recorded : ∀ e ∈ t.entries, h.latest e.ipv4 = some (e.mac, e.setAt) ∧ e.setAt ≤ h.now

variable {t : ArpTable} {h h' : ArpHistory} {ipv4 : IPv4Addr} {time : BitVec 64}

theorem KeepsOthers.refl (t : ArpTable) (ipv4 : IPv4Addr) : KeepsOthers t t ipv4 := ⟨rfl, rfl⟩

theorem Sound.later (hs : Sound t h) (hl : h'.latest = h.latest) (hn : h.now ≤ h'.now) :
    Sound t h' :=
  ⟨hs.entryUuid, hs.queryUuid, hs.entries, hs.queries, fun e he =>
    ⟨hl ▸ (hs.recorded e he).1, BitVec.le_trans (hs.recorded e he).2 hn⟩⟩

variable {q q' : ArpQuery}

theorem Sound.isFor_iff (hs : Sound t h) (hq : q ∈ t.queries) : q.isFor ipv4 ↔ q.ipv4 = ipv4 := by
  rw [ArpQuery.isFor, decide_eq_true_iff, and_iff_right (hs.queryUuid q hq)]

theorem queryMac_entries (t : ArpTable) (ipv4 : IPv4Addr) : (t.queryMac ipv4).entries = t.entries := by
  rw [queryMac]
  split_ifs <;> rfl

theorem queryMac_keepsOthers (t : ArpTable) (ipv4 : IPv4Addr) : KeepsOthers t (t.queryMac ipv4) ipv4 := by
  rw [queryMac]
  split_ifs
  · exact .refl t ipv4
  refine ⟨rfl, ?_⟩
  rw [filter_append, filter_cons_of_neg (by simp), filter_nil, append_nil]

theorem Sound.queryMac (hs : Sound t h) (ipv4 : IPv4Addr) : Sound (t.queryMac ipv4) h := by
  rw [ArpTable.queryMac]
  split_ifs with ha
  · exact hs
  refine ⟨hs.entryUuid, fun q hq => ?_, hs.entries, ?_, hs.recorded⟩
  · rcases mem_append.mp hq with hq | hq
    · exact hs.queryUuid q hq
    · rw [mem_singleton.mp hq]
  rw [map_append]
  refine nodup_append.mpr ⟨hs.queries, nodup_singleton _, ?_⟩
  rintro _ hm _ hn rfl
  obtain ⟨q, hq, rfl⟩ := mem_map.mp hm
  refine ha (any_eq_true.mpr ⟨q, hq, (hs.isFor_iff hq).mpr ?_⟩)
  exact mem_singleton.mp hn

/-! ### `get_mac` -/

theorem getMacLoop_none {entries : List ArpEntry} {i : ℕ} (hn : ∀ e ∈ entries, e.ipv4 ≠ ipv4) :
    t.getMacLoop ipv4 time i entries = (none, t.queryMac ipv4) := by
  induction entries generalizing i with
  | nil => rfl
  | cons e rest ih =>
    obtain ⟨he, hr⟩ := forall_mem_cons.mp hn
    rw [getMacLoop, if_neg he, ih hr, ite_self]

variable {entry e : ArpEntry}

theorem getMacLoop_some {pre after : List ArpEntry} {i : ℕ} (hb : ∀ e ∈ pre, e.ipv4 ≠ ipv4)
    (huu : entry.uuid = arpEthIPv4) (hn : entry.ipv4 = ipv4) :
    t.getMacLoop ipv4 time i (pre ++ entry :: after) =
      t.useEntry ipv4 time (i + pre.length) entry := by
  induction pre generalizing i with
  | nil => rw [nil_append, getMacLoop, if_neg (not_not.mpr huu), if_pos hn]; rfl
  | cons e rest ih =>
    obtain ⟨he, hr⟩ := forall_mem_cons.mp hb
    rw [cons_append, getMacLoop, if_neg he, ih hr, ite_self, length_cons,
      Nat.add_assoc, Nat.add_comm 1]

section

variable (hs : Sound t h)
include hs

theorem Sound.getMac_cases (ipv4 : IPv4Addr) (time : BitVec 64) :
    ((∀ e ∈ t.entries, e.ipv4 ≠ ipv4) ∧ t.getMac ipv4 time = (none, t.queryMac ipv4)) ∨
    ∃ before entry after, t.entries = before ++ entry :: after ∧ entry.ipv4 = ipv4 ∧
      (∀ e ∈ t.entries, e.ipv4 = ipv4 → e = entry) ∧
      t.getMac ipv4 time = t.useEntry ipv4 time before.length entry := by
  by_cases hn : ∀ e ∈ t.entries, e.ipv4 ≠ ipv4
  · exact .inl ⟨hn, getMacLoop_none hn⟩
  push Not at hn
  obtain ⟨entry, hen, rfl⟩ := hn
  obtain ⟨before, after, hp⟩ := append_of_mem hen
  have hu : ∀ e ∈ t.entries, e.ipv4 = entry.ipv4 → e = entry := fun e he hq =>
    inj_on_of_nodup_map hs.entries he hen hq
  refine .inr ⟨before, entry, after, hp, rfl, hu, ?_⟩
  have hb : ∀ e ∈ before, e.ipv4 ≠ entry.ipv4 := by
    intro e he hq
    have ho := hs.entries
    rw [hp, map_append, map_cons] at ho
    exact (nodup_append.mp ho).2.2 _ (mem_map_of_mem he) _ mem_cons_self hq
  rw [getMac, hp, getMacLoop_some hb (hs.entryUuid entry hen) rfl, Nat.zero_add]

theorem Sound.mark {pre after : List ArpEntry} (hp : t.entries = pre ++ entry :: after) :
    Sound { t with entries := t.entries.set pre.length { entry with updating := true } } h ∧
      KeepsOthers t { t with entries := t.entries.set pre.length { entry with updating := true } }
        entry.ipv4 := by
  have ht : t.entries.set pre.length { entry with updating := true } =
      pre ++ { entry with updating := true } :: after := by
    rw [hp, set_append_right _ _ le_rfl, Nat.sub_self, set_cons_zero]
  have hm : ∀ e ∈ t.entries.set pre.length { entry with updating := true },
      ∃ e' ∈ t.entries, e.uuid = e'.uuid ∧ e.ipv4 = e'.ipv4 ∧ e.mac = e'.mac ∧ e.setAt = e'.setAt := by
    intro e he
    rw [ht, mem_append, mem_cons] at he
    rw [hp]
    rcases he with he | rfl | he
    · exact ⟨e, mem_append_left _ he, rfl, rfl, rfl, rfl⟩
    · exact ⟨entry, mem_append_right _ mem_cons_self, rfl, rfl, rfl, rfl⟩
    · exact ⟨e, mem_append_right _ (mem_cons_of_mem _ he), rfl, rfl, rfl, rfl⟩
  refine ⟨⟨fun e he => ?_, hs.queryUuid, ?_, hs.queries, fun e he => ?_⟩, ?_, rfl⟩
  · obtain ⟨e', he', huu, -⟩ := hm e he
    exact huu.trans (hs.entryUuid e' he')
  · have hn := hs.entries
    rw [hp] at hn
    dsimp only
    rw [ht]
    simpa using hn
  · obtain ⟨e', he', -, hip4, ha, hsetA⟩ := hm e he
    rw [hip4, ha, hsetA]
    exact hs.recorded e' he'
  · dsimp only
    rw [ht, hp, filter_append, filter_append, filter_cons_of_neg (by simp),
      filter_cons_of_neg (by simp)]

theorem Sound.eraseQuery (i : ℕ) : Sound { t with queries := t.queries.eraseIdx i } h :=
  ⟨hs.entryUuid, fun q hq => hs.queryUuid q (mem_of_mem_eraseIdx hq), hs.entries,
    hs.queries.sublist ((eraseIdx_sublist ..).map _), hs.recorded⟩

theorem Sound.useEntry {pre after : List ArpEntry} (hp : t.entries = pre ++ entry :: after)
    (ipv4 : IPv4Addr) (time : BitVec 64) :
    Sound (t.useEntry ipv4 time pre.length entry).2 h := by
  rw [ArpTable.useEntry]
  split_ifs
  · exact (hs.eraseQuery _).queryMac ipv4
  · exact (hs.mark hp).1.queryMac ipv4
  · exact hs

theorem Sound.getMac (ipv4 : IPv4Addr) (time : BitVec 64) : Sound (t.getMac ipv4 time).2 h := by
  rcases hs.getMac_cases ipv4 time with ⟨-, hg⟩ | ⟨before, entry, after, hp, -, -, hg⟩
  · rw [hg]
    exact hs.queryMac ipv4
  · rw [hg]
    exact hs.useEntry hp ipv4 time

/-- **`get_mac` answers from the last `set_mac`**, which is not too long ago. -/
theorem Sound.getMac_fresh (hn : h.now ≤ time) {mac : MacAddr}
    (hg : (t.getMac ipv4 time).1 = some mac) :
    ∃ setAt, h.latest ipv4 = some (mac, setAt) ∧ setAt ≤ time ∧ time - setAt ≤ arpTimeoutNs := by
  rcases hs.getMac_cases ipv4 time with ⟨-, hc⟩ | ⟨before, entry, after, hp, rfl, -, hc⟩
  · rw [hc] at hg
    cases hg
  have hen : entry ∈ t.entries := hp ▸ mem_append_right _ mem_cons_self
  obtain ⟨hl, he⟩ := hs.recorded entry hen
  rw [hc, ArpTable.useEntry] at hg
  split_ifs at hg with ht hr
  all_goals
    cases hg
    exact ⟨entry.setAt, hl, BitVec.le_trans he hn, BitVec.not_lt.mp ht⟩

theorem Sound.getMac_respects (ipv4 : IPv4Addr) (time : BitVec 64) :
    t.Respects (.getMac ipv4 time) ↔ ¬ t.FindsExpired (.getMac ipv4 time) := by
  rcases hs.getMac_cases ipv4 time with
    ⟨hn, hg⟩ | ⟨before, entry, after, hp, rfl, hun, hg⟩
  · rw [Respects, FindsExpired, hg]
    refine ⟨fun _ ⟨e, he, hq, _⟩ => hn e he hq, fun _ => ⟨queryMac_keepsOthers t ipv4, ?_⟩⟩
    exact fun e he hq => absurd hq (hn e he)
  have hen : entry ∈ t.entries := hp ▸ mem_append_right _ mem_cons_self
  rw [Respects, FindsExpired, hg, ArpTable.useEntry]
  split_ifs with ht hre
  · -- the entry stays where it is
    refine ⟨fun ⟨_, hr⟩ => ?_, fun hf => absurd ⟨entry, hen, rfl, ht⟩ hf⟩
    refine absurd rfl (hr entry hen rfl ht entry ?_)
    rw [queryMac_entries]
    exact hen
  all_goals
    have hf : ∀ e ∈ t.entries, e.ipv4 = entry.ipv4 → ¬ Expired time e := fun e he hq =>
      hun e he hq ▸ ht
    refine ⟨fun _ ⟨e, he, hq, hex⟩ => hf e he hq hex, fun _ => ⟨?_, ?_⟩⟩
  · have hm := (hs.mark hp).2
    have hu := queryMac_keepsOthers
      { t with entries := t.entries.set before.length { entry with updating := true } } entry.ipv4
    exact ⟨hu.entries.trans hm.entries, hu.queries.trans hm.queries⟩
  · exact fun e he hq hex => absurd hex (hf e he hq)
  · exact .refl t entry.ipv4
  · exact fun e he hq hex => absurd hex (hf e he hq)

end

/-! ### `set_mac` and the loop -/

section SetMac

variable {entries : List ArpEntry} {mac : MacAddr} {upd : Bool}

section

variable (huu : ∀ e ∈ entries, e.uuid = arpEthIPv4)
include huu

theorem mem_setEntry (hn : (entries.map ArpEntry.ipv4).Nodup)
    (he : e ∈ setEntry ipv4 mac time upd entries) :
    (e.uuid = arpEthIPv4 ∧ e.ipv4 = ipv4 ∧ e.mac = mac ∧ e.setAt = time) ∨
      e ∈ entries ∧ e.ipv4 ≠ ipv4 := by
  induction entries with
  | nil =>
    rw [mem_singleton.mp he]
    exact .inl ⟨rfl, rfl, rfl, rfl⟩
  | cons head rest ih =>
    obtain ⟨hh, hr⟩ := forall_mem_cons.mp huu
    rw [map_cons, nodup_cons] at hn
    rw [setEntry] at he
    split_ifs at he with hq
    · rcases mem_cons.mp he with rfl | hm
      · exact .inl ⟨hq.1, hq.2, rfl, rfl⟩
      refine .inr ⟨mem_cons_of_mem _ hm, fun h => hn.1 ?_⟩
      rw [hq.2, ← h]
      exact mem_map_of_mem hm
    · rcases mem_cons.mp he with rfl | hm
      · exact .inr ⟨mem_cons_self, fun h => hq ⟨hh, h⟩⟩
      · exact (ih hr hn.2 hm).imp_right fun h => ⟨mem_cons_of_mem _ h.1, h.2⟩

theorem map_setEntry :
    (setEntry ipv4 mac time upd entries).map ArpEntry.ipv4 =
      if ipv4 ∈ entries.map ArpEntry.ipv4 then entries.map ArpEntry.ipv4
      else entries.map ArpEntry.ipv4 ++ [ipv4] := by
  induction entries with
  | nil => rfl
  | cons head rest ih =>
    obtain ⟨hh, hr⟩ := forall_mem_cons.mp huu
    rw [setEntry]
    by_cases he : head.ipv4 = ipv4
    · rw [if_pos ⟨hh, he⟩, if_pos (by simp [he])]
      rfl
    rw [if_neg fun h => he h.2, map_cons, ih hr, map_cons]
    by_cases hm : ipv4 ∈ rest.map ArpEntry.ipv4
    · rw [if_pos hm, if_pos (mem_cons_of_mem _ hm)]
    have hn : ipv4 ∉ head.ipv4 :: rest.map ArpEntry.ipv4 :=
      not_mem_cons_of_ne_of_not_mem (Ne.symm he) hm
    rw [if_neg hm, if_neg hn, cons_append]

end

theorem filter_setEntry :
    (setEntry ipv4 mac time upd entries).filter (·.ipv4 ≠ ipv4) =
      entries.filter (·.ipv4 ≠ ipv4) := by
  induction entries with
  | nil => rw [setEntry, filter_cons_of_neg (by simp)]
  | cons head rest ih =>
    rw [setEntry]
    split_ifs with hh
    · rw [filter_cons_of_neg (by simp [hh.2]), filter_cons_of_neg (by simp [hh.2])]
    · rw [filter_cons, filter_cons, ih]

end SetMac

theorem Sound.setMac (hs : Sound t h) (ho : h.now ≤ time) (ipv4 : IPv4Addr) (mac : MacAddr)
    (upd : Bool) :
    Sound (t.setMac ipv4 mac time upd) (h.after (.setMac ipv4 mac time upd)) := by
  refine ⟨fun e he => ?_, fun q hq => hs.queryUuid q (mem_filter.mp hq).1, ?_,
    hs.queries.sublist (filter_sublist.map _), fun e he => ?_⟩
  · rcases mem_setEntry hs.entryUuid hs.entries he with hn | hold
    · exact hn.1
    · exact hs.entryUuid e hold.1
  · dsimp only [ArpTable.setMac]
    rw [map_setEntry hs.entryUuid]
    split_ifs with hm
    · exact hs.entries
    exact nodup_append.mpr ⟨hs.entries, nodup_singleton _, fun a ha b hb heq =>
      hm (mem_singleton.mp hb ▸ heq ▸ ha)⟩
  rcases mem_setEntry hs.entryUuid hs.entries he with ⟨-, rfl, rfl, rfl⟩ | ⟨hold, hne⟩
  · exact ⟨update_self .., BitVec.le_refl _⟩
  obtain ⟨hl, ht⟩ := hs.recorded e hold
  exact ⟨(update_of_ne hne _ _).trans hl, BitVec.le_trans ht ho⟩

theorem Sound.setMac_respects (hs : Sound t h) (ipv4 : IPv4Addr) (mac : MacAddr) (time : BitVec 64)
    (upd : Bool) : t.Respects (.setMac ipv4 mac time upd) := by
  refine ⟨filter_setEntry, ?_⟩
  dsimp only [ArpTable.setMac]
  rw [filter_filter]
  refine filter_congr fun q hq => ?_
  have hf : q.isFor ipv4 ↔ q.ipv4 = ipv4 := hs.isFor_iff hq
  by_cases he : q.ipv4 = ipv4 <;> simp_all

theorem retry_ipv4 (hq : retry time q = some q') : q'.uuid = q.uuid ∧ q'.ipv4 = q.ipv4 := by
  rw [retry] at hq
  split_ifs at hq
  all_goals
    cases hq
    exact ⟨rfl, rfl⟩

theorem Sound.loopPass (hs : Sound t h) (time : BitVec 64) : Sound (t.loopPass time) h := by
  refine ⟨hs.entryUuid, fun q hq => ?_, hs.entries, ?_, hs.recorded⟩
  · obtain ⟨q₀, hq₀, he⟩ := mem_filterMap.mp hq
    exact (retry_ipv4 he).1.trans (hs.queryUuid q₀ hq₀)
  refine pairwise_map.mpr (pairwise_filterMap.mpr ?_)
  refine (pairwise_map.mp hs.queries).imp fun hn q hq q' hq' => ?_
  rw [(retry_ipv4 hq).2, (retry_ipv4 hq').2]
  exact hn

theorem loopPass_respects (t : ArpTable) (time : BitVec 64) : t.Respects (.loopPass time) := by
  refine ⟨rfl, fun q hq he => ?_⟩
  cases hr : retry time q with
  | none =>
    rw [retry, if_neg he] at hr
    split_ifs at hr
  | some q' => exact ⟨q', mem_filterMap.mpr ⟨q, hq, hr⟩, (retry_ipv4 hr).2⟩

/-! ## Runs -/

theorem Sound.after (hs : Sound t h) {call : ArpCall} (ht : h.now ≤ call.time) :
    Sound (t.after call) (h.after call) := by
  cases call with
  | getMac ipv4 time => exact (hs.getMac ipv4 time).later rfl ht
  | setMac ipv4 mac time upd => exact hs.setMac ht ipv4 mac upd
  | loopPass time => exact (hs.loopPass time).later rfl ht

theorem Sound.respects_iff (hs : Sound t h) (call : ArpCall) :
    t.Respects call ↔ ¬ t.FindsExpired call := by
  cases call with
  | getMac ipv4 time => exact hs.getMac_respects ipv4 time
  | setMac ipv4 mac time upd =>
    exact iff_of_true (hs.setMac_respects ipv4 mac time upd) id
  | loopPass time => exact iff_of_true (loopPass_respects t time) id

/-- **Coherence of the cache.** In every run at times that do not decrease, no address has two entries
or two queries, `get_mac` answers from the last `set_mac` of its address, at most `ARP_TIMEOUT_NS` ago,
and a call keeps to its address exactly when it finds no entry that has expired. -/
theorem coherent (run : Reach (alongside step ArpHistory.after) Timely ({}, {}) (t, h)) :
    (t.entries.map ArpEntry.ipv4).Nodup ∧ (t.queries.map ArpQuery.ipv4).Nodup ∧
      (∀ ipv4 time mac, h.now ≤ time → (t.getMac ipv4 time).1 = some mac →
        ∃ setAt, h.latest ipv4 = some (mac, setAt) ∧ setAt ≤ time ∧ time - setAt ≤ arpTimeoutNs) ∧
      ∀ call, t.Respects call ↔ ¬ t.FindsExpired call := by
  have hs : Sound t h := by
    refine run.alongside (R := Sound) ?_ fun t h call t' hs hti hst => ?_
    · exact ⟨fun e he => (nomatch he), fun q hq => (nomatch hq), nodup_nil, nodup_nil,
        fun e he => nomatch he⟩
    · exact Except.ok.inj hst ▸ hs.after hti
  exact ⟨hs.entries, hs.queries, fun ipv4 time mac hno hget => hs.getMac_fresh hno hget,
    hs.respects_iff⟩

theorem coherent_lookup :
    ∃ t h, Reach (alongside step ArpHistory.after) Timely ({}, {}) (t, h) ∧
      (t.getMac 1 11000000000).1 = some 7 ∧ t.Respects (.getMac 1 11000000000) := by
  obtain ⟨⟨t, h⟩, hp, hget, hen⟩ : ∃ p ∈ execute (alongside step ArpHistory.after) Timely ({}, {})
      [.setMac 1 7 0 false, .getMac 2 1, .loopPass 5], (p.1.getMac 1 11000000000).1 = some 7 ∧
        p.1.entries = [⟨arpEthIPv4, 0, false, 1, 7⟩] := by
    decide
  have run := Reach.refl.execute hp
  obtain ⟨-, -, -, hres⟩ := coherent run
  refine ⟨t, h, run, hget, (hres _).mpr ?_⟩
  rintro ⟨e, he, -, hex⟩
  rw [hen, mem_singleton] at he
  subst he
  exact absurd hex (by decide)

theorem not_coherent_expired :
    ∃ t h, Reach (alongside step ArpHistory.after) Timely ({}, {}) (t, h) ∧
      (∃ q ∈ t.queries, q.ipv4 = 2) ∧ (∀ q ∈ (t.getMac 1 16000000000).2.queries, q.ipv4 ≠ 2) ∧
      (t.getMac 1 16000000000).2.entries = t.entries ∧ ¬ t.Respects (.getMac 1 16000000000) := by
  obtain ⟨⟨t, h⟩, hp, hqu, hgo, hen, hdi⟩ :
      ∃ p ∈ execute (alongside step ArpHistory.after) Timely ({}, {})
      [.setMac 1 7 0 false, .getMac 2 1], (∃ q ∈ p.1.queries, q.ipv4 = 2) ∧
        (∀ q ∈ (p.1.getMac 1 16000000000).2.queries, q.ipv4 ≠ 2) ∧
        (p.1.getMac 1 16000000000).2.entries = p.1.entries ∧
        p.1.queries.filter (·.ipv4 ≠ 1) ≠ (p.1.getMac 1 16000000000).2.queries.filter (·.ipv4 ≠ 1) := by
    decide
  refine ⟨t, h, Reach.refl.execute hp, hqu, hgo, hen, fun hres => ?_⟩
  exact hdi hres.1.queries.symm

end ArpTable

end AexKernel.Net
