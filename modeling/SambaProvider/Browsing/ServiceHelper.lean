import Mathlib.Data.List.Induction
import Mathlib.Data.List.Nodup
import Mathlib.Data.List.Perm.Basic
import Mathlib.Logic.Function.Basic

/-!
# Discovered services

`ServiceHelper.java`: the map from the address of a host to the names it
answers to, which the discovery threads fill. A call for an address the
map has takes the address out, and puts it back only with a name that is
new to it.
-/

namespace SambaProvider

/-- The helper: its map, whether it has a listener, and how often that was
called. -/
structure ServiceHelper where
  mMap : String → Option (List String) := fun _ => none
  mListener : Bool := false
  dataChanges : ℕ := 0

/-- The arguments of a call, neither of them empty. -/
structure ServiceData where
  ip : String
  name : String
  ip_ne : ip ≠ ""
  name_ne : name ≠ ""
deriving DecidableEq

namespace ServiceHelper

/-- The update of the map in `addServiceData`. -/
def updated (map : String → Option (List String)) (ip name : String) :
    String → Option (List String) :=
  match map ip with
  | some strings =>
    let removed := Function.update map ip none
    if name ∈ strings then removed else Function.update removed ip (some (strings ++ [name]))
  | none => Function.update map ip (some [name])

/-- `addServiceData`. -/
def addServiceData (h : ServiceHelper) (ip name : String) : ServiceHelper :=
  if ip = "" ∨ name = "" then h
  else
    { h with
      mMap := updated h.mMap ip name
      dataChanges := if h.mListener then h.dataChanges + 1 else h.dataChanges }

/-- `getMap`. -/
def getMap (h : ServiceHelper) : String → Option (List String) := h.mMap

/-- The helper after the calls. -/
def run (h : ServiceHelper) (calls : List ServiceData) : ServiceHelper :=
  calls.foldl (fun h c => h.addServiceData c.ip c.name) h

/-- The names passed with an address. -/
def namesOf (calls : List ServiceData) (ip : String) : List String :=
  (calls.filter fun c => c.ip = ip).map ServiceData.name

/-- What the calls tell: the distinct names of an address that occurred, in
the order they first occurred in. -/
def told (calls : List ServiceData) (ip : String) : Option (List String) :=
  if namesOf calls ip = [] then none else some (namesOf calls ip).eraseDups

/-- **Services accumulate** from an empty map on: it holds what the calls
tell, no call takes a name away, repeating a call changes nothing, and
another order of the calls changes the order of the names at most. -/
structure Accumulates (calls : List ServiceData) : Prop where
  exact : ∀ h : ServiceHelper, h.mMap = (fun _ => none) → (h.run calls).getMap = told calls
  keeps : ∀ h : ServiceHelper, h.mMap = (fun _ => none) → ∀ pre c post,
    calls = pre ++ c :: post → ∀ ip names, (h.run pre).getMap ip = some names →
      ∃ names', (h.run (pre ++ [c])).getMap ip = some names' ∧ ∀ n ∈ names, n ∈ names'
  repeats : ∀ h : ServiceHelper, h.mMap = (fun _ => none) → ∀ pre c post,
    calls = pre ++ c :: post → c ∈ pre → (h.run (pre ++ [c])).getMap = (h.run pre).getMap
  orders : ∀ h : ServiceHelper, h.mMap = (fun _ => none) → ∀ calls', calls'.Perm calls → ∀ ip,
    Option.Rel List.Perm ((h.run calls').getMap ip) ((h.run calls).getMap ip)

variable {h : ServiceHelper} {c : ServiceData} {calls calls' pre : List ServiceData}
variable {ip : String}

/-! ## One call -/

theorem run_concat : h.run (calls ++ [c]) = (h.run calls).addServiceData c.ip c.name :=
  List.foldl_concat ..

theorem mMap_addServiceData :
    (h.addServiceData c.ip c.name).mMap = updated h.mMap c.ip c.name := by
  rw [addServiceData, if_neg (not_or.mpr ⟨c.ip_ne, c.name_ne⟩)]

/-- A call with what is there takes the address out. -/
theorem updated_of_mem {map : String → Option (List String)} {strings : List String}
    {name : String} (hip : map ip = some strings) (hname : name ∈ strings) :
    updated map ip name ip = none := by
  simp [updated, hip, hname]

/-- A call with a new name adds it. -/
theorem updated_of_not_mem {map : String → Option (List String)} {name : String}
    (hname : name ∉ (map ip).getD []) :
    updated map ip name = Function.update map ip (some ((map ip).getD [] ++ [name])) := by
  unfold updated
  cases hip : map ip with
  | none => rfl
  | some strings =>
    rw [hip, Option.getD_some] at hname
    simp [hname]

/-! ## What is told -/

theorem mem_namesOf {name : String} :
    name ∈ namesOf calls ip ↔ ∃ c ∈ calls, c.ip = ip ∧ c.name = name := by
  simp [namesOf, and_assoc]

theorem name_mem_namesOf : c.name ∈ namesOf calls c.ip ↔ c ∈ calls := by
  rw [mem_namesOf]
  constructor
  · rintro ⟨d, hd, hip, hname⟩
    have hdc : d = c := by
      cases d
      cases c
      cases hip
      cases hname
      rfl
    exact hdc ▸ hd
  · exact fun hc => ⟨c, hc, rfl, rfl⟩

theorem namesOf_concat : namesOf (calls ++ [c]) ip =
    if ip = c.ip then namesOf calls ip ++ [c.name] else namesOf calls ip := by
  unfold namesOf
  rw [List.filter_append, List.map_append]
  by_cases hip : ip = c.ip
  · rw [if_pos hip, List.filter_cons_of_pos (by simp [hip])]
    rfl
  · rw [if_neg hip, List.filter_cons_of_neg (by simpa using Ne.symm hip)]
    exact List.append_nil _

theorem getD_told : (told calls ip).getD [] = (namesOf calls ip).eraseDups := by
  unfold told
  split
  · rename_i hnil
    rw [hnil]
    rfl
  · rfl

/-- **A call that is new** adds its name. -/
theorem told_concat (hc : c ∉ calls) : told (calls ++ [c]) =
    Function.update (told calls) c.ip (some ((told calls c.ip).getD [] ++ [c.name])) := by
  funext ip
  by_cases hip : ip = c.ip
  · subst hip
    have hnew : [c.name].removeAll (namesOf calls c.ip) = [c.name] := by
      simp [List.removeAll, name_mem_namesOf, hc]
    rw [Function.update_self, getD_told, told, namesOf_concat, if_pos rfl, if_neg (by simp),
      List.eraseDups_append, hnew]
    rfl
  · rw [Function.update_of_ne hip, told, told, namesOf_concat, if_neg hip]

/-- **Without repetition** the map holds what the calls tell. -/
theorem getMap_run (hempty : h.mMap = fun _ => none) (hcalls : calls.Nodup) :
    (h.run calls).getMap = told calls := by
  induction calls using List.reverseRecOn with
  | nil => exact hempty
  | append_singleton calls c ih =>
    obtain ⟨hnodup, -, hdisjoint⟩ := List.nodup_append.mp hcalls
    have hc : c ∉ calls := fun hmem => hdisjoint c hmem c List.mem_cons_self rfl
    have hmap : (h.run calls).mMap = told calls := ih hnodup
    have hname : c.name ∉ ((told calls c.ip).getD []) := by
      rw [getD_told, List.mem_eraseDups, name_mem_namesOf]
      exact hc
    rw [getMap, run_concat, mMap_addServiceData, hmap, updated_of_not_mem hname, told_concat hc]

/-! ## Other orders -/

/-- Distinct calls have distinct names for an address. -/
theorem nodup_namesOf (hcalls : calls.Nodup) : (namesOf calls ip).Nodup := by
  refine List.Nodup.map_on (fun c hc d hd hname => ?_) (hcalls.filter _)
  have hcip : c.ip = ip := by simpa using (List.mem_filter.mp hc).2
  have hdip : d.ip = ip := by simpa using (List.mem_filter.mp hd).2
  cases c
  cases d
  cases hname
  cases hcip.trans hdip.symm
  rfl

theorem eraseDups_of_nodup {names : List String} (h : names.Nodup) : names.eraseDups = names := by
  induction names with
  | nil => rfl
  | cons n names ih =>
    obtain ⟨hn, hnames⟩ := List.nodup_cons.mp h
    have hfilter : (names.filter fun b => !b == n) = names := by
      refine List.filter_eq_self.mpr fun b hb => ?_
      simp only [Bool.not_eq_true', beq_eq_false_iff_ne]
      rintro rfl
      exact hn hb
    rw [List.eraseDups_cons, hfilter, ih hnames]

/-- Another order of the calls tells the same, in another order. -/
theorem rel_told (hcalls : calls.Nodup) (hperm : calls'.Perm calls) :
    Option.Rel List.Perm (told calls' ip) (told calls ip) := by
  have hnames : (namesOf calls' ip).Perm (namesOf calls ip) := (hperm.filter _).map _
  have hnodup : (namesOf calls ip).Nodup := nodup_namesOf hcalls
  unfold told
  by_cases hnil : namesOf calls ip = []
  · rw [if_pos hnil, if_pos (List.perm_nil.mp (hnil ▸ hnames))]
    exact .none
  · have hnil' : namesOf calls' ip ≠ [] := fun h => hnil (List.nil_perm.mp (h ▸ hnames))
    rw [if_neg hnil, if_neg hnil', eraseDups_of_nodup hnodup,
      eraseDups_of_nodup (hnames.nodup_iff.mpr hnodup)]
    exact .some hnames

/-! ## The result -/

/-- **A repeated call loses its address.** -/
theorem getMap_run_repeated (hempty : h.mMap = fun _ => none) (hpre : pre.Nodup) (hc : c ∈ pre) :
    (h.run (pre ++ [c])).getMap c.ip = none ∧ (h.run pre).getMap c.ip ≠ none := by
  have hmap : (h.run pre).mMap = told pre := getMap_run hempty hpre
  have hnames : namesOf pre c.ip ≠ [] :=
    List.ne_nil_of_mem (name_mem_namesOf.mpr hc)
  have htold : told pre c.ip = some (namesOf pre c.ip).eraseDups := if_neg hnames
  constructor
  · rw [getMap, run_concat, mMap_addServiceData, hmap]
    exact updated_of_mem htold (List.mem_eraseDups.mpr (name_mem_namesOf.mpr hc))
  · rw [getMap, hmap, htold]
    exact Option.some_ne_none _

/-- **Services accumulate** exactly where no call is repeated. -/
theorem accumulates_iff (calls : List ServiceData) : Accumulates calls ↔ calls.Nodup := by
  constructor
  · intro hacc
    have hprefix (pre post : List ServiceData) (heq : calls = pre ++ post) : pre.Nodup := by
      induction pre using List.reverseRecOn generalizing post with
      | nil => exact List.nodup_nil
      | append_singleton pre c ih =>
        rw [List.append_assoc] at heq
        have hpre : pre.Nodup := ih _ heq
        by_cases hc : c ∈ pre
        · obtain ⟨hnone, hsome⟩ := getMap_run_repeated (h := {}) rfl hpre hc
          rw [hacc.repeats {} rfl pre c post heq hc] at hnone
          exact absurd hnone hsome
        · exact List.nodup_append.mpr ⟨hpre, List.nodup_singleton c, fun a ha b hb hab =>
            hc (List.mem_singleton.mp hb ▸ hab ▸ ha)⟩
    exact hprefix calls [] (List.append_nil calls).symm
  · intro hcalls
    refine ⟨fun h hempty => getMap_run hempty hcalls, ?_, ?_, ?_⟩
    · rintro h hempty pre c post rfl ip names hnames
      obtain ⟨hpre, -, hdisjoint⟩ := List.nodup_append.mp hcalls
      have hc : c ∉ pre := fun hmem => hdisjoint c hmem c List.mem_cons_self rfl
      have hpre' : (pre ++ [c]).Nodup := by
        refine hcalls.sublist (List.Sublist.append_left ?_ pre)
        exact List.singleton_sublist.mpr List.mem_cons_self
      rw [getMap_run hempty hpre] at hnames
      rw [getMap_run hempty hpre', told_concat hc]
      by_cases hip : ip = c.ip
      · subst hip
        rw [Function.update_self, hnames]
        exact ⟨_, rfl, fun n hn => List.mem_append_left _ hn⟩
      · rw [Function.update_of_ne hip]
        exact ⟨names, hnames, fun n hn => hn⟩
    · rintro h hempty pre c post rfl hc
      exact absurd rfl ((List.nodup_append.mp hcalls).2.2 c hc c List.mem_cons_self)
    · intro h hempty calls' hperm ip
      rw [getMap_run hempty hcalls, getMap_run hempty (hperm.nodup_iff.mpr hcalls)]
      exact rel_told hcalls hperm

/-- A host that answers. -/
def nas : ServiceData := ⟨"192.168.1.2", "NAS", by decide, by decide⟩

/-- Reported twice, it is gone. -/
theorem not_accumulates_twice : ¬ Accumulates [nas, nas] := by
  intro h
  have hnone := (getMap_run_repeated (h := {}) rfl (List.nodup_singleton nas)
    List.mem_cons_self).1
  rw [List.singleton_append, h.exact {} rfl] at hnone
  cases hnone

end ServiceHelper

end SambaProvider
