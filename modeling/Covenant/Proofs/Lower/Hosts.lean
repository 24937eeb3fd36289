import Covenant.Lower.Program
import Covenant.Proofs.Tree.Walk
import Covenant.Proofs.Typing.Rules

/-! The host functions of a checked body are those of the library. -/

namespace Covenant.Lower

open Typing

variable {S : Site}

theorem hosts_known (hs : S.strict) {l : Bool} {e : Expr} (h : e.Every (rule S) l) :
    AllIn (· ∈ HostFunction.all) (hosts.expr e) := by
  cases e with
  | call n f es =>
    cases f with
    | host f =>
      obtain ⟨_,_,hf,_⟩ := (h.1.2 hs).2
      exact List.forall_mem_singleton.mpr hf
    | _ => exact nofun
  | _ => exact nofun

theorem hosts_walk (hs : S.strict) {b : Block} {l : Bool} (h : b.Every (rule S) l) :
    AllIn (· ∈ HostFunction.all) (blockHosts b) :=
  (gather_walk (hosts_known hs) nofun nofun).onBlock b h

theorem mem_of_mem_distinctImports {h : HostFunction} {hs : List HostFunction}
    (hm : h ∈ distinctImports hs) : h ∈ hs := by
  induction hs with
  | nil => exact hm
  | cons f hs ih =>
    rcases List.mem_cons.mp hm with rfl | hm
    · exact List.mem_cons_self
    · exact List.mem_cons_of_mem _ (ih (List.mem_of_mem_filter hm))

theorem eraseDups_filter (q : String → Bool) (xs : List String) :
    (xs.filter q).eraseDups = xs.eraseDups.filter q := by
  induction hn : xs.length using Nat.strongRecOn generalizing xs with
  | ind n ih => cases xs with
    | nil => rfl
    | cons x xs =>
      have hlen : (xs.filter (fun y => !y == x)).length < n := by
        have hle := List.length_filter_le (fun y => !y == x) xs
        rw [List.length_cons] at hn
        omega
      have hrest := ih _ hlen _ rfl
      rw [List.eraseDups_cons]
      by_cases hx : q x = true
      · rw [List.filter_cons_of_pos hx,List.filter_cons_of_pos hx,List.eraseDups_cons,← hrest,List.filter_filter,
          List.filter_filter]
        simp only [Bool.and_comm]
      · rw [List.filter_cons_of_neg hx,List.filter_cons_of_neg hx,← hrest,List.filter_filter]
        have hsame : xs.filter (fun y => q y && !y == x) = xs.filter q := by
          refine List.filter_congr fun y _ => ?_
          by_cases hy : y = x
          · simp [hy, hx]
          · simp [hy]
        rw [hsame]

theorem importName_distinctImports (hs : List HostFunction) :
    (distinctImports hs).map (·.importName) = (hs.map (·.importName)).eraseDups := by
  induction hs with
  | nil => rfl
  | cons h hs ih =>
    have hfilter : ((distinctImports hs).filter (·.importName ≠ h.importName)).map (·.importName) =
        ((distinctImports hs).map (·.importName)).filter (fun x => !x == h.importName) := by
      rw [List.filter_map]
      congr 1
      refine List.filter_congr fun g _ => ?_
      by_cases hg : g.importName = h.importName <;> simp [hg]
    rw [distinctImports,List.map_cons,List.map_cons,List.eraseDups_cons,hfilter,ih,eraseDups_filter]

theorem exists_mem_distinctImports {h : HostFunction} {hs : List HostFunction} (hm : h ∈ hs) :
    ∃ g ∈ distinctImports hs, g.importName = h.importName := by
  induction hs with
  | nil => cases hm
  | cons f hs ih =>
    by_cases hf : f.importName = h.importName
    · exact ⟨f,List.mem_cons_self,hf⟩
    · have htail : h ∈ hs := (List.mem_cons.mp hm).resolve_left fun heq => hf (heq ▸ rfl)
      obtain ⟨g,hg,hname⟩ := ih htail
      have hne : g.importName ≠ f.importName := fun heq => hf (heq.symm.trans hname)
      exact ⟨g,List.mem_cons_of_mem f (List.mem_filter.mpr ⟨hg,decide_eq_true hne⟩),hname⟩

/-- Functions of the library with the same import name take and give the same. -/
theorem host_of_importName : ∀ h ∈ HostFunction.all, ∀ h' ∈ HostFunction.all,
    h.importName = h'.importName → h.params = h'.params ∧ h.result = h'.result := by
  decide

end Covenant.Lower
