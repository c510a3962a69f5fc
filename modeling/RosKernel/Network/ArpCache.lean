import RosKernel.Network.Frames

/-! The ARP cache, `network/ethernetstack.cpp`.

A lookup takes the first valid slot of an address. An address that is not in the cache enters the
first free slot and is left out when there is none. The cache has 64 slots; nothing depends on their number.
-/

set_option autoImplicit false

namespace RosKernel.Network

open List

structure ARPEntry where
  ipAddr : UInt32
  macAddr : Mac
  valid : Bool
  deriving DecidableEq

def ARPEntry.holds (entry : ARPEntry) (ip : UInt32) : Bool := entry.valid && entry.ipAddr == ip

abbrev ArpCache := List ARPEntry

section

variable (cache : ArpCache)
include cache

/-- The search of `GetMacFromCache`, without the broadcast address. -/
def ArpCache.lookup (ip : UInt32) : Option Mac := (cache.find? fun entry => entry.holds ip).map ARPEntry.macAddr

def ArpCache.getMacFromCache (targetIP : UInt32) : Option Mac :=
  if targetIP = broadcastIP then some broadcastMac else cache.lookup targetIP

def ArpCache.overwrite (ip : UInt32) (mac : Mac) : ArpCache :=
  cache.replaceF fun entry => if entry.holds ip then some { entry with macAddr := mac } else none

def ArpCache.occupy (ip : UInt32) (mac : Mac) : ArpCache :=
  cache.replaceF fun entry => if entry.valid then none else some ⟨ip, mac, true⟩

def updateArpCache (ip : UInt32) (mac : Mac) : ArpCache :=
  if cache.any fun entry => entry.holds ip then cache.overwrite ip mac else cache.occupy ip mac

def ArpCache.hasRoom : Bool := cache.any fun entry => !entry.valid

end

namespace ArpCache

variable {cache : ArpCache} {entry : ARPEntry} {ip other : UInt32} {mac : Mac}

theorem lookup_cons : lookup (entry :: cache) ip = if entry.holds ip then some entry.macAddr else lookup cache ip := by
  unfold lookup
  rw [find?_cons]
  cases entry.holds ip <;> rfl

theorem holds_iff : entry.holds ip = true ↔ entry.valid = true ∧ entry.ipAddr = ip := by
  rw [ARPEntry.holds, Bool.and_eq_true, beq_iff_eq]

theorem lookup_isSome : (cache.lookup ip).isSome = cache.any fun entry => entry.holds ip := by
  induction cache with
  | nil => rfl
  | cons entry cache ih =>
    rw [lookup_cons, any_cons, ← ih]
    cases entry.holds ip <;> rfl

theorem overwrite_cons : overwrite (entry :: cache) ip mac =
    if entry.holds ip then { entry with macAddr := mac } :: cache else entry :: overwrite cache ip mac := by
  unfold overwrite
  rw [replaceF_cons]
  cases entry.holds ip <;> rfl

theorem occupy_cons : occupy (entry :: cache) ip mac =
    if entry.valid then entry :: occupy cache ip mac else ⟨ip, mac, true⟩ :: cache := by
  unfold occupy
  rw [replaceF_cons]
  cases entry.valid <;> rfl

theorem lookup_overwrite_self (known : (cache.any fun entry => entry.holds ip) = true) : (cache.overwrite ip mac).lookup ip = some mac := by
  induction cache with
  | nil => exact nomatch known
  | cons entry cache ih =>
    rw [overwrite_cons]
    cases h : entry.holds ip with
    | true =>
      rw [if_pos rfl, lookup_cons]
      exact if_pos h
    | false =>
      rw [any_cons, h, Bool.false_or] at known
      rw [if_neg Bool.false_ne_true, lookup_cons, if_neg (ne_true_of_eq_false h)]
      exact ih known

theorem lookup_overwrite_of_ne (ne : other ≠ ip) : (cache.overwrite ip mac).lookup other = cache.lookup other := by
  induction cache with
  | nil => rfl
  | cons entry cache ih =>
    rw [overwrite_cons]
    cases h : entry.holds ip with
    | true =>
      have elsewhere : entry.holds other = false := by
        apply eq_false_of_ne_true
        intro there
        exact ne ((holds_iff.mp there).2.symm.trans (holds_iff.mp h).2)
      have kept : ARPEntry.holds { entry with macAddr := mac } other = false := elsewhere
      rw [if_pos rfl, lookup_cons, lookup_cons, kept, elsewhere]
      rfl
    | false =>
      rw [if_neg Bool.false_ne_true, lookup_cons, lookup_cons]
      exact congrArg _ ih

theorem lookup_occupy_self (unknown : (cache.any fun entry => entry.holds ip) = false) (room : cache.hasRoom = true) :
    (cache.occupy ip mac).lookup ip = some mac := by
  induction cache with
  | nil => exact nomatch room
  | cons entry cache ih =>
    rw [occupy_cons]
    rw [any_cons, Bool.or_eq_false_iff] at unknown
    cases h : entry.valid with
    | true =>
      rw [if_pos rfl, lookup_cons, unknown.1]
      exact ih unknown.2 (by rwa [hasRoom, any_cons, h] at room)
    | false =>
      rw [if_neg Bool.false_ne_true, lookup_cons, if_pos (holds_iff.mpr ⟨rfl, rfl⟩)]

theorem lookup_occupy_of_ne (ne : other ≠ ip) : (cache.occupy ip mac).lookup other = cache.lookup other := by
  induction cache with
  | nil => rfl
  | cons entry cache ih =>
    rw [occupy_cons]
    cases h : entry.valid with
    | true =>
      rw [if_pos rfl, lookup_cons, lookup_cons]
      exact congrArg _ ih
    | false =>
      have ht : ARPEntry.holds ⟨ip, mac, true⟩ other = false := beq_false_of_ne ne.symm
      have free : entry.holds other = false := by rw [ARPEntry.holds, h, Bool.false_and]
      rw [if_neg Bool.false_ne_true, lookup_cons, lookup_cons, ht, free]
      rfl

theorem occupy_full (full : cache.hasRoom = false) : cache.occupy ip mac = cache := by
  apply replaceF_of_forall_none
  intro entry mem
  have valid := any_eq_false.mp full entry mem
  rw [Bool.not_eq_true', Bool.not_eq_false] at valid
  exact if_pos valid

end ArpCache

section

variable {cache : ArpCache} {ip other : UInt32} {mac : Mac}

/-- The address is found afterwards under its new address. -/
def Learned (cache : ArpCache) (ip : UInt32) (mac : Mac) : Prop :=
  if ip = broadcastIP then mac = broadcastMac else (cache.lookup ip).isSome = true ∨ cache.hasRoom = true

/-- Nothing that is found changes. -/
def Unheard (cache : ArpCache) (ip : UInt32) (mac : Mac) : Prop :=
  ip = broadcastIP ∨ cache.lookup ip = some mac ∨ cache.lookup ip = none ∧ cache.hasRoom = false

theorem lookup_update_of_ne (ne : other ≠ ip) : (updateArpCache cache ip mac).lookup other = cache.lookup other := by
  unfold updateArpCache
  split
  case isTrue => exact ArpCache.lookup_overwrite_of_ne ne
  case isFalse => exact ArpCache.lookup_occupy_of_ne ne

theorem getMac_update_of_ne (ne : other ≠ ip) :
    (updateArpCache cache ip mac).getMacFromCache other = cache.getMacFromCache other := by
  unfold ArpCache.getMacFromCache
  rw [lookup_update_of_ne ne]

theorem Learned.getMac_self (learned : Learned cache ip mac) : (updateArpCache cache ip mac).getMacFromCache ip = some mac := by
  unfold Learned at learned
  unfold ArpCache.getMacFromCache
  by_cases broadcast : ip = broadcastIP
  · rw [if_pos broadcast] at learned ⊢
    rw [learned]
  · rw [if_neg broadcast] at learned ⊢
    rw [ArpCache.lookup_isSome] at learned
    unfold updateArpCache
    cases known : cache.any fun entry => entry.holds ip with
    | true => exact ArpCache.lookup_overwrite_self known
    | false => exact ArpCache.lookup_occupy_self known (learned.resolve_left (ne_true_of_eq_false known))

theorem Learned.getMac (learned : Learned cache ip mac) :
    (updateArpCache cache ip mac).getMacFromCache = Function.update cache.getMacFromCache ip (some mac) := by
  funext other
  by_cases eq : other = ip
  · rw [eq, Function.update_self]
    exact learned.getMac_self
  · rw [Function.update_of_ne eq]
    exact getMac_update_of_ne eq

theorem Unheard.getMac (unheard : Unheard cache ip mac) : (updateArpCache cache ip mac).getMacFromCache = cache.getMacFromCache := by
  funext other
  by_cases eq : other = ip
  · subst eq
    rcases unheard with broadcast | known | ⟨unknown, full⟩
    · unfold ArpCache.getMacFromCache
      rw [if_pos broadcast, if_pos broadcast]
    · have learned : Learned cache other mac ∨ other = broadcastIP := by
        by_cases broadcast : other = broadcastIP
        · exact .inr broadcast
        · left
          unfold Learned
          rw [if_neg broadcast, known]
          exact .inl rfl
      rcases learned with learned | broadcast
      · rw [learned.getMac_self]
        unfold ArpCache.getMacFromCache
        split
        case isTrue broadcast =>
          unfold Learned at learned
          rw [if_pos broadcast] at learned
          rw [learned]
        case isFalse => exact known.symm
      · unfold ArpCache.getMacFromCache
        rw [if_pos broadcast, if_pos broadcast]
    · have absent : (cache.any fun entry => entry.holds other) = false := by
        rw [← ArpCache.lookup_isSome, unknown]
        rfl
      rw [updateArpCache, if_neg (ne_true_of_eq_false absent), ArpCache.occupy_full full]
  · exact getMac_update_of_ne eq

end

end RosKernel.Network
