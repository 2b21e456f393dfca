import SambaProvider.Base.Numbers
import SambaProvider.Browsing.Listen
import SambaProvider.Browsing.ServiceHelper
import SambaProvider.Lib.Interleave

/-!
# Searching every address

`IpSearchBrowsingProvider`: five threads share out the addresses of the
subnet, ask each host for its names and pass them on. No host is asked by
two of them, so the map does not depend on how the threads take turns; but
a host that is asked once more, by another search, loses its place in it.
-/

namespace SambaProvider

open Lib

/-! ## The code -/

/-- The part of an address that its subnet shares, with the dot. -/
def subHead (ipV4Address : String) : String :=
  String.ofList (ipV4Address.toList.reverse.dropWhile (· ≠ '.')).reverse

/-- The addresses of one of the loops. -/
def addresses (subHead : String) (offset : ℕ) : List String :=
  (List.range' 1 50).map fun i => subHead ++ toString (i + offset)

/-- `getServersAsy`: the addresses each thread is given. -/
def getServersAsy (ipV4Address : String) : List (List String) :=
  if ipV4Address = "" then []
  else
    let subHead := subHead ipV4Address
    [addresses subHead 0, addresses subHead 50, addresses subHead 100, addresses subHead 150,
      addresses subHead 200 ++ [subHead ++ toString 251, subHead ++ toString 252,
        subHead ++ toString 253, subHead ++ toString 254]]

/-- The names in the answer of a host, if there is one in time. -/
def namesAt (receive : String → Option Datagram) (transId : ℕ) (address : String) : List String :=
  match receive address with
  | none => []
  | some packet => found transId packet.data

/-- The calls of `addServiceData` for one host. -/
def callsAt (receive : String → Option Datagram) (a : String × ℕ) : List (String × String) :=
  (namesAt receive a.2 a.1).map fun name => (a.1, name)

/-- `getRunnable`: the calls, host after host. -/
def getRunnable (receive : String → Option Datagram) (addresses : List String) :
    List (String × String) :=
  addresses.zipIdx.flatMap (callsAt receive)

namespace ServiceHelper

/-- The helper after the calls, whatever their arguments. -/
def fill (h : ServiceHelper) (calls : List (String × String)) : ServiceHelper :=
  calls.foldl (fun h c => h.addServiceData c.1 c.2) h

/-- What a call does to the names of its address. -/
def toggle (names : Option (List String)) (name : String) : Option (List String) :=
  if name = "" then names
  else
    match names with
    | some strings => if name ∈ strings then none else some (strings ++ [name])
    | none => some [name]

variable {h : ServiceHelper} {calls calls' : List (String × String)} {ip name : String}
variable {names : List String}

/-! ## The calls for one address -/

theorem mMap_addServiceData_self (hip : ip ≠ "") :
    (h.addServiceData ip name).mMap ip = toggle (h.mMap ip) name := by
  unfold addServiceData toggle
  by_cases hname : name = ""
  · rw [if_pos (.inr hname), if_pos hname]
  · rw [if_neg (not_or.mpr ⟨hip, hname⟩), if_neg hname]
    simp only [updated]
    cases h.mMap ip with
    | none => simp
    | some strings =>
      simp only
      split
      · simp
      · simp

theorem updated_of_ne {map : String → Option (List String)} {x : String} (hx : x ≠ ip) :
    updated map ip name x = map x := by
  unfold updated
  cases map ip with
  | none => exact Function.update_of_ne hx _ _
  | some strings =>
    simp only
    split
    · exact Function.update_of_ne hx _ _
    · rw [Function.update_of_ne hx, Function.update_of_ne hx]

theorem mMap_addServiceData_of_ne {x : String} (hx : x ≠ ip) :
    (h.addServiceData ip name).mMap x = h.mMap x := by
  unfold addServiceData
  split
  · rfl
  · exact updated_of_ne hx

/-- **The names of an address** come from the calls for it alone. -/
theorem mMap_fill (hip : ip ≠ "") : (h.fill calls).mMap ip =
    ((calls.filter fun c => c.1 = ip).map Prod.snd).foldl toggle (h.mMap ip) := by
  induction calls generalizing h with
  | nil => rfl
  | cons c calls ih =>
    rw [fill, List.foldl_cons, ← fill, ih]
    by_cases hc : c.1 = ip
    · rw [List.filter_cons_of_pos (by simpa using hc), List.map_cons, List.foldl_cons, hc,
        mMap_addServiceData_self hip]
    · rw [List.filter_cons_of_neg (by simpa using hc), mMap_addServiceData_of_ne (Ne.symm hc)]

/-- A call without an address does nothing. -/
theorem mMap_fill_empty : (h.fill calls).mMap "" = h.mMap "" := by
  induction calls generalizing h with
  | nil => rfl
  | cons c calls ih =>
    rw [fill, List.foldl_cons, ← fill, ih]
    by_cases hc : c.1 = ""
    · rw [addServiceData, if_pos (.inl hc)]
    · exact mMap_addServiceData_of_ne (Ne.symm hc)

/-- Names that are new are added in their order. -/
theorem foldl_toggle_some {strings : List String} (hne : "" ∉ names)
    (hnodup : (strings ++ names).Nodup) :
    names.foldl toggle (some strings) = some (strings ++ names) := by
  induction names generalizing strings with
  | nil => rw [List.foldl_nil, List.append_nil]
  | cons name names ih =>
    rw [List.mem_cons, not_or] at hne
    have hname : name ∉ strings := fun hmem =>
      (List.nodup_append.mp hnodup).2.2 name hmem name List.mem_cons_self rfl
    rw [List.foldl_cons, toggle, if_neg (Ne.symm hne.1)]
    simp only [if_neg hname]
    rw [List.append_cons] at hnodup
    rw [ih hne.2 hnodup, ← List.append_cons]

/-- **Different names** of an address that is not there yet are all there. -/
theorem foldl_toggle_none (hne : "" ∉ names) (hnodup : names.Nodup) :
    names.foldl toggle none = if names = [] then none else some names := by
  cases names with
  | nil => rfl
  | cons name names =>
    rw [List.mem_cons, not_or] at hne
    rw [List.foldl_cons, toggle, if_neg (Ne.symm hne.1), if_neg (List.cons_ne_nil _ _)]
    exact foldl_toggle_some hne.2 hnodup

/-- **One name, again and again**, is there after every other call. -/
theorem foldl_toggle_replicate (hname : name ≠ "") (n : ℕ) :
    (List.replicate n name).foldl toggle none = if n % 2 = 1 then some [name] else none := by
  induction n with
  | zero => rfl
  | succ n ih =>
    rw [List.replicate_succ', List.foldl_concat, ih]
    rcases Nat.mod_two_eq_zero_or_one n with heven | hodd
    · rw [if_neg (by omega), if_pos (by omega), toggle, if_neg hname]
    · rw [if_pos hodd, if_neg (by omega), toggle, if_neg hname]
      exact if_pos List.mem_cons_self

end ServiceHelper

/-! ## The addresses -/

/-- An address of the subnet. -/
def hostAddress (ipV4Address : String) (n : ℕ) : String := subHead ipV4Address ++ toString n

/-- The number a host's answer has to bear: its place in its thread. -/
def transIdOf (n : ℕ) : ℕ := if n ≤ 250 then (n - 1) % 50 else n - 201

variable {ip : String} {receive : String → Option Datagram} {n : ℕ}

theorem hostAddress_injective : Function.Injective (hostAddress ip) := by
  intro m n h
  have hnumber := congrArg (fun s : String => number (s.toList.drop (subHead ip).toList.length)) h
  simp only [hostAddress, String.toList_append, List.drop_left, number_toString] at hnumber
  exact Option.some.inj hnumber

theorem addresses_eq (offset : ℕ) :
    addresses (subHead ip) offset = (List.range' (offset + 1) 50).map (hostAddress ip) := by
  rw [← List.map_add_range', List.map_map, addresses]
  exact List.map_congr_left fun i _ => by rw [Nat.add_comm]; rfl

/-- The addresses of the threads. -/
theorem getServersAsy_eq (hip : ip ≠ "") : getServersAsy ip =
    [(List.range' 1 50).map (hostAddress ip), (List.range' 51 50).map (hostAddress ip),
      (List.range' 101 50).map (hostAddress ip), (List.range' 151 50).map (hostAddress ip),
      (List.range' 201 54).map (hostAddress ip)] := by
  have hmore : [subHead ip ++ toString 251, subHead ip ++ toString 252, subHead ip ++ toString 253,
      subHead ip ++ toString 254] = (List.range' 251 4).map (hostAddress ip) := rfl
  have hlast : List.range' 201 50 ++ List.range' 251 4 = List.range' 201 54 := List.range'_append_1
  rw [getServersAsy, if_neg hip]
  simp only [addresses_eq, hmore, ← List.map_append, Nat.reduceAdd, hlast]

/-- **Every address of the subnet** is given to one thread, once. -/
theorem flatten_getServersAsy (hip : ip ≠ "") :
    (getServersAsy ip).flatten = (List.range' 1 254).map (hostAddress ip) := by
  have h₄ : List.range' 151 50 ++ List.range' 201 54 = List.range' 151 104 := List.range'_append_1
  have h₃ : List.range' 101 50 ++ List.range' 151 104 = List.range' 101 154 := List.range'_append_1
  have h₂ : List.range' 51 50 ++ List.range' 101 154 = List.range' 51 204 := List.range'_append_1
  have h₁ : List.range' 1 50 ++ List.range' 51 204 = List.range' 1 254 := List.range'_append_1
  rw [getServersAsy_eq hip]
  simp only [List.flatten_cons, List.flatten_nil, List.append_nil, ← List.map_append, h₄, h₃, h₂,
    h₁]

theorem nodup_flatten_getServersAsy (hip : ip ≠ "") : (getServersAsy ip).flatten.Nodup := by
  rw [flatten_getServersAsy hip]
  exact List.Nodup.map hostAddress_injective List.nodup_range'

theorem getElem?_map_hostAddress {first count i m : ℕ} (hi : i < count) (hm : first + i = m) :
    ((List.range' first count).map (hostAddress ip))[i]? = some (hostAddress ip m) := by
  rw [List.getElem?_map, List.getElem?_range' hi, Nat.one_mul, hm]
  rfl

/-- The place of an address in its thread. -/
theorem exists_thread (hip : ip ≠ "") (hpos : 1 ≤ n) (hle : n ≤ 254) :
    ∃ thread ∈ getServersAsy ip, thread[transIdOf n]? = some (hostAddress ip n) := by
  rw [getServersAsy_eq hip]
  simp only [List.mem_cons, List.not_mem_nil, or_false, exists_eq_or_imp, exists_eq_left]
  unfold transIdOf
  -- fifty addresses for each thread, and 54 for the last
  by_cases h₁ : n ≤ 50
  · exact .inl (getElem?_map_hostAddress (by split <;> omega) (by split <;> omega))
  · by_cases h₂ : n ≤ 100
    · exact .inr (.inl (getElem?_map_hostAddress (by split <;> omega) (by split <;> omega)))
    · by_cases h₃ : n ≤ 150
      · exact .inr (.inr (.inl
          (getElem?_map_hostAddress (by split <;> omega) (by split <;> omega))))
      · by_cases h₄ : n ≤ 200
        · exact .inr (.inr (.inr (.inl
            (getElem?_map_hostAddress (by split <;> omega) (by split <;> omega)))))
        · exact .inr (.inr (.inr (.inr
            (getElem?_map_hostAddress (by split <;> omega) (by split <;> omega)))))

/-! ## The calls of the threads -/

theorem filter_callsAt {a : String} {b : String × ℕ} :
    ((callsAt receive b).filter fun c => c.1 = a).map Prod.snd =
      if b.1 = a then namesAt receive b.2 b.1 else [] := by
  unfold callsAt
  split
  · rename_i hab
    have hall : ((namesAt receive b.2 b.1).map fun name => (b.1, name)).filter
        (fun c => c.1 = a) = (namesAt receive b.2 b.1).map fun name => (b.1, name) := by
      rw [List.filter_eq_self]
      intro c hc
      obtain ⟨name, -, rfl⟩ := List.mem_map.mp hc
      exact decide_eq_true hab
    rw [hall, List.map_map]
    exact List.map_id _
  · rename_i hab
    rw [List.map_eq_nil_iff, List.filter_eq_nil_iff]
    intro c hc
    obtain ⟨name, -, rfl⟩ := List.mem_map.mp hc
    simpa using hab

/-- A thread has no calls for an address it was not given. -/
theorem filter_calls_of_not_mem {thread : List String} {a : String} (ha : a ∉ thread) (k : ℕ) :
    (((thread.zipIdx k).flatMap (callsAt receive)).filter fun c => c.1 = a).map Prod.snd = [] := by
  induction thread generalizing k with
  | nil => rfl
  | cons b thread ih =>
    rw [List.mem_cons, not_or] at ha
    rw [List.zipIdx_cons, List.flatMap_cons, List.filter_append, List.map_append, filter_callsAt,
      if_neg (Ne.symm ha.1), ih ha.2, List.append_nil]

/-- **What a thread passes on** for an address it was given once. -/
theorem filter_calls {thread : List String} {a : String} {i : ℕ} (hnodup : thread.Nodup)
    (hi : thread[i]? = some a) (k : ℕ) :
    (((thread.zipIdx k).flatMap (callsAt receive)).filter fun c => c.1 = a).map Prod.snd =
      namesAt receive (k + i) a := by
  induction thread generalizing i k with
  | nil => cases hi
  | cons b thread ih =>
    rw [List.nodup_cons] at hnodup
    rw [List.zipIdx_cons, List.flatMap_cons, List.filter_append, List.map_append, filter_callsAt]
    cases i with
    | zero =>
      obtain rfl := Option.some.inj hi
      rw [if_pos rfl, filter_calls_of_not_mem hnodup.1, List.append_nil]
      rfl
    | succ i =>
      rw [List.getElem?_cons_succ] at hi
      have hne : b ≠ a := fun h => hnodup.1 (h ▸ List.mem_of_getElem? hi)
      rw [if_neg hne, List.nil_append, ih hnodup.2 hi]
      congr 1
      omega

/-- No two threads have calls for one address. -/
theorem pairwise_getRunnable (hip : ip ≠ "") (a : String) :
    ((getServersAsy ip).map (getRunnable receive)).Pairwise fun t t' =>
      (t.filter fun c => c.1 = a) = [] ∨ (t'.filter fun c => c.1 = a) = [] := by
  rw [List.pairwise_map]
  refine (List.nodup_flatten.mp (nodup_flatten_getServersAsy hip)).2.imp fun {t t'} hdisjoint => ?_
  by_cases ha : a ∈ t
  · right
    have ha' : a ∉ t' := fun h => hdisjoint ha h
    exact List.map_eq_nil_iff.mp (filter_calls_of_not_mem ha' 0)
  · left
    exact List.map_eq_nil_iff.mp (filter_calls_of_not_mem ha 0)

/-- Threads that were not given an address pass nothing on for it. -/
theorem filter_flatten_of_not_mem {threads : List (List String)} {a : String}
    (h : ∀ t ∈ threads, a ∉ t) :
    ((threads.map (getRunnable receive)).flatten.filter fun c => c.1 = a) = [] := by
  rw [List.filter_eq_nil_iff]
  intro c hc
  obtain ⟨calls, hcalls, hc⟩ := List.mem_flatten.mp hc
  obtain ⟨t, ht, rfl⟩ := List.mem_map.mp hcalls
  exact List.filter_eq_nil_iff.mp (List.map_eq_nil_iff.mp (filter_calls_of_not_mem (h t ht) 0)) c hc

/-- What all the threads pass on for an address. -/
theorem filter_flatten (hip : ip ≠ "") (hpos : 1 ≤ n) (hle : n ≤ 254) :
    ((((getServersAsy ip).map (getRunnable receive)).flatten.filter
        fun c => c.1 = hostAddress ip n).map Prod.snd) =
      namesAt receive (transIdOf n) (hostAddress ip n) := by
  obtain ⟨thread, hthread, hi⟩ := exists_thread hip hpos hle
  obtain ⟨pre, post, heq⟩ := List.append_of_mem hthread
  have hnodup := List.nodup_flatten.mp (nodup_flatten_getServersAsy hip)
  rw [heq] at hnodup ⊢
  obtain ⟨-, hpost, hpre⟩ := List.pairwise_append.mp hnodup.2
  have hmem : hostAddress ip n ∈ thread := List.mem_of_getElem? hi
  have hthread' : thread.Nodup :=
    hnodup.1 thread (List.mem_append_right _ List.mem_cons_self)
  rw [List.map_append, List.map_cons, List.flatten_append, List.flatten_cons, List.filter_append,
    List.filter_append, filter_flatten_of_not_mem fun t ht h =>
      hpre t ht thread List.mem_cons_self h hmem,
    filter_flatten_of_not_mem fun t ht h => (List.pairwise_cons.mp hpost).1 t ht hmem h,
    List.nil_append, List.append_nil, getRunnable, filter_calls hthread' hi, Nat.zero_add]

/-! ## The map -/

variable {h : ServiceHelper} {calls : List (String × String)} {name : String}

theorem hostAddress_ne : hostAddress ip n ≠ "" := by
  intro h
  have hnil := congrArg String.toList h
  rw [hostAddress, String.toList_append] at hnil
  exact (isDigit_of_number number_toString).1 (List.append_eq_nil_iff.mp hnil).2

/-- **The search lists each host with what it answers**, however its threads
take turns: a host that is not in the map yet, and whose names are
different, is there with its names if it has any; and what the map has
outside the subnet stays as it was. -/
theorem getMap_fill_search (hip : ip ≠ "")
    (hcalls : Interleaving ((getServersAsy ip).map (getRunnable receive)) calls) :
    (∀ n, 1 ≤ n → n ≤ 254 → h.mMap (hostAddress ip n) = none →
      let names := namesAt receive (transIdOf n) (hostAddress ip n)
      "" ∉ names → names.Nodup →
        (h.fill calls).getMap (hostAddress ip n) = if names = [] then none else some names) ∧
    ∀ a, (∀ n, 1 ≤ n → n ≤ 254 → a ≠ hostAddress ip n) → (h.fill calls).getMap a = h.getMap a := by
  constructor
  · intro n hpos hle hfresh names hne hnodup
    -- one thread only has calls for the host, so its names come in their order
    rw [ServiceHelper.getMap, ServiceHelper.mMap_fill hostAddress_ne,
      hcalls.filter_eq (pairwise_getRunnable hip _), filter_flatten hip hpos hle, hfresh]
    exact ServiceHelper.foldl_toggle_none hne hnodup
  · intro a ha
    by_cases hempty : a = ""
    · rw [hempty]
      exact ServiceHelper.mMap_fill_empty
    · have hother : ∀ t ∈ getServersAsy ip, a ∉ t := by
        intro t ht hmem
        have hflat := List.mem_flatten_of_mem ht hmem
        rw [flatten_getServersAsy hip] at hflat
        obtain ⟨n, hn, heq⟩ := List.mem_map.mp hflat
        obtain ⟨hpos, hlt⟩ := List.mem_range'_1.mp hn
        exact ha n hpos (by omega) heq.symm
      rw [ServiceHelper.getMap, ServiceHelper.mMap_fill hempty,
        hcalls.filter_eq (pairwise_getRunnable hip a), filter_flatten_of_not_mem hother]
      rfl

/-! ### Two hosts that answer -/

theorem flatMap_callsAt_of_none {thread : List String} (hnone : ∀ a ∈ thread, receive a = none)
    (k : ℕ) : (thread.zipIdx k).flatMap (callsAt receive) = [] := by
  rw [List.flatMap_eq_nil_iff]
  intro a ha
  rw [callsAt, namesAt, hnone a.1 (List.fst_mem_of_mem_zipIdx ha)]
  rfl

/-- A thread none of whose hosts answers passes nothing on. -/
theorem getRunnable_of_none {thread : List String} (hnone : ∀ a ∈ thread, receive a = none) :
    getRunnable receive thread = [] :=
  flatMap_callsAt_of_none hnone 0

/-- A thread one of whose hosts answers passes its names on. -/
theorem getRunnable_of_one {before after : List String} {a : String}
    (hbefore : ∀ b ∈ before, receive b = none) (hafter : ∀ b ∈ after, receive b = none) :
    getRunnable receive (before ++ a :: after) =
      (namesAt receive before.length a).map fun name => (a, name) := by
  rw [getRunnable, List.zipIdx_append, List.zipIdx_cons, List.flatMap_append, List.flatMap_cons,
    flatMap_callsAt_of_none hbefore, flatMap_callsAt_of_none hafter, List.nil_append,
    List.append_nil, callsAt, Nat.zero_add]

def pcEntry : NameEntry := { nasEntry with name := Vector.replicate 15 0x50 }

/-- The answer of a host with two names. -/
def answeredTwo : Datagram :=
  ⟨"192.168.1.2", responseHead 0x21 ++
    (List.replicate 8 0 ++ 2 :: [nasEntry, pcEntry].flatMap NameEntry.toBytes),
    by simp [responseHead, NameEntry.toBytes]⟩

/-- Two hosts of the subnet answer, the first with two names. -/
def twoAnswers (address : String) : Option Datagram :=
  if address = hostAddress "192.168.1.7" 2 then some answeredTwo
  else if address = hostAddress "192.168.1.7" 52 then some answered
  else none

theorem twoAnswers_eq_none {first count : ℕ} (h₁ : 2 ∉ List.range' first count)
    (h₂ : 52 ∉ List.range' first count) :
    ∀ a ∈ (List.range' first count).map (hostAddress "192.168.1.7"), twoAnswers a = none := by
  intro a ha
  obtain ⟨n, hn, rfl⟩ := List.mem_map.mp ha
  have hne₁ : n ≠ 2 := fun h => h₁ (h ▸ hn)
  have hne₂ : n ≠ 52 := fun h => h₂ (h ▸ hn)
  rw [twoAnswers, if_neg fun h => hne₁ (hostAddress_injective h),
    if_neg fun h => hne₂ (hostAddress_injective h)]

theorem namesAt_twoAnswers :
    namesAt twoAnswers 1 (hostAddress "192.168.1.7" 2) = ["NNNNNNNNNNNNNNN", "PPPPPPPPPPPPPPP"] ∧
      namesAt twoAnswers 1 (hostAddress "192.168.1.7" 52) = ["NNNNNNNNNNNNNNN"] := by
  have hne : hostAddress "192.168.1.7" 52 ≠ hostAddress "192.168.1.7" 2 := fun h =>
    absurd (hostAddress_injective h) (by decide)
  have htwo : ResponseWord 1 answeredTwo.payload ([nasEntry, pcEntry].flatMap NameEntry.servers) :=
    .nodes (headWord_responseHead 0x21) (.inr rfl) (.nodes rfl rfl)
  have hone : ResponseWord 1 answered.payload ([nasEntry].flatMap NameEntry.servers) :=
    .nodes (headWord_responseHead 0x21) (.inr rfl) (.nodes rfl rfl)
  have hservers : [nasEntry, pcEntry].flatMap NameEntry.servers =
      ["NNNNNNNNNNNNNNN", "PPPPPPPPPPPPPPP"] := by decide
  have hserver : [nasEntry].flatMap NameEntry.servers = ["NNNNNNNNNNNNNNN"] := by decide
  constructor
  · rw [namesAt, twoAnswers, if_pos rfl, ← hservers]
    exact found_of_ok (extractServers_of_word htwo _)
  · rw [namesAt, twoAnswers, if_neg hne, if_pos rfl, ← hserver]
    exact found_of_ok (extractServers_of_word hone _)

/-- Turns of the two threads whose hosts answer. -/
def twoTurns : List (String × String) :=
  [(hostAddress "192.168.1.7" 2, "NNNNNNNNNNNNNNN"),
    (hostAddress "192.168.1.7" 52, "NNNNNNNNNNNNNNN"),
    (hostAddress "192.168.1.7" 2, "PPPPPPPPPPPPPPP")]

theorem interleaving_twoTurns :
    Interleaving ((getServersAsy "192.168.1.7").map (getRunnable twoAnswers)) twoTurns := by
  have hfirst : (List.range' 1 50).map (hostAddress "192.168.1.7") =
      (List.range' 1 1).map (hostAddress "192.168.1.7") ++ hostAddress "192.168.1.7" 2 ::
        (List.range' 3 48).map (hostAddress "192.168.1.7") := rfl
  have hsecond : (List.range' 51 50).map (hostAddress "192.168.1.7") =
      (List.range' 51 1).map (hostAddress "192.168.1.7") ++ hostAddress "192.168.1.7" 52 ::
        (List.range' 53 48).map (hostAddress "192.168.1.7") := rfl
  obtain ⟨htwo, hone⟩ := namesAt_twoAnswers
  rw [getServersAsy_eq (by decide), hfirst, hsecond]
  simp only [List.map_cons, List.map_nil,
    getRunnable_of_one (twoAnswers_eq_none (by decide : 2 ∉ List.range' 1 1) (by decide))
      (twoAnswers_eq_none (by decide : 2 ∉ List.range' 3 48) (by decide)),
    getRunnable_of_one (twoAnswers_eq_none (by decide : 2 ∉ List.range' 51 1) (by decide))
      (twoAnswers_eq_none (by decide : 2 ∉ List.range' 53 48) (by decide)),
    getRunnable_of_none (twoAnswers_eq_none (by decide : 2 ∉ List.range' 101 50) (by decide)),
    getRunnable_of_none (twoAnswers_eq_none (by decide : 2 ∉ List.range' 151 50) (by decide)),
    getRunnable_of_none (twoAnswers_eq_none (by decide : 2 ∉ List.range' 201 54) (by decide)),
    List.length_map, List.length_range', htwo, hone]
  exact @Interleaving.next _ [] _ _ _ _ (@Interleaving.next _ [_] _ _ _ _
    (@Interleaving.next _ [] _ _ _ _ (.done (by simp))))

/-- Both hosts are there with their names, though their threads take turns,
and a host outside the subnet is not. -/
theorem getMap_fill_search_two :
    (ServiceHelper.fill {} twoTurns).getMap (hostAddress "192.168.1.7" 2) =
        some ["NNNNNNNNNNNNNNN", "PPPPPPPPPPPPPPP"] ∧
      (ServiceHelper.fill {} twoTurns).getMap (hostAddress "192.168.1.7" 52) =
        some ["NNNNNNNNNNNNNNN"] ∧
      (ServiceHelper.fill {} twoTurns).getMap "10.0.0.2" = none := by
  have htwo : namesAt twoAnswers (transIdOf 2) (hostAddress "192.168.1.7" 2) =
      ["NNNNNNNNNNNNNNN", "PPPPPPPPPPPPPPP"] := namesAt_twoAnswers.1
  have hone : namesAt twoAnswers (transIdOf 52) (hostAddress "192.168.1.7" 52) =
      ["NNNNNNNNNNNNNNN"] := namesAt_twoAnswers.2
  obtain ⟨hinside, houtside⟩ :=
    getMap_fill_search (h := {}) (by decide) interleaving_twoTurns
  refine ⟨?_, ?_, houtside "10.0.0.2" fun n _ _ heq => ?_⟩
  · have hfilled := hinside 2 (by decide) (by decide) rfl
    simp only [htwo] at hfilled
    exact hfilled (by decide) (by decide)
  · have hfilled := hinside 52 (by decide) (by decide) rfl
    simp only [hone] at hfilled
    exact hfilled (by decide) (by decide)
  · have hhead := congrArg (fun a : String => a.toList.take 2) heq
    have hsub : (subHead "192.168.1.7").toList = "192.168.1.".toList := by decide
    rw [hostAddress, String.toList_append, hsub] at hhead
    exact absurd hhead (by simp)

/-- **A host with one name** is in the map after every other answer: where
it answers two searches, it is not there. -/
theorem getMap_fill_of_one_name (hip : ip ≠ "") (hname : name ≠ "") (hfresh : h.mMap ip = none)
    (hone : ∀ c ∈ calls, c.1 = ip → c.2 = name) :
    (h.fill calls).getMap ip =
      if (calls.countP fun c => c.1 = ip) % 2 = 1 then some [name] else none := by
  have hnames : (calls.filter fun c => c.1 = ip).map Prod.snd =
      List.replicate (calls.countP fun c => c.1 = ip) name := by
    rw [List.eq_replicate_iff, List.length_map, List.countP_eq_length_filter]
    refine ⟨rfl, fun x hx => ?_⟩
    obtain ⟨c, hc, rfl⟩ := List.mem_map.mp hx
    obtain ⟨hmem, hc⟩ := List.mem_filter.mp hc
    exact hone c hmem (of_decide_eq_true hc)
  rw [ServiceHelper.getMap, ServiceHelper.mMap_fill hip, hnames, hfresh,
    ServiceHelper.foldl_toggle_replicate hname]

/-- The same answer to two searches. -/
theorem getMap_fill_of_one_name_twice :
    (ServiceHelper.fill {} [("192.168.1.2", "NAS"), ("192.168.1.3", "PC"),
      ("192.168.1.2", "NAS")]).getMap "192.168.1.2" = none := by
  have hone : ∀ c ∈ [("192.168.1.2", "NAS"), ("192.168.1.3", "PC"), ("192.168.1.2", "NAS")],
      c.1 = "192.168.1.2" → c.2 = "NAS" := by decide
  rw [getMap_fill_of_one_name (by decide) (by decide) rfl hone]
  rfl

end SambaProvider
