/-
# Names that functions and globals are linked under

A function is linked under its name, with the number of its overload behind a dot if there is one before it.
-/
import BasicCompiler.Lowering.State
import BasicCompiler.Proofs.Token.Casing
import BasicCompiler.Proofs.Typed.Programs
import Mathlib.Data.List.Basic

namespace BasicCompiler

open List

/-! ## Names and numbers -/

variable {n : Nat}

theorem toList_fold (text : String) : (fold text).toList = text.toList.map Char.toLower := by
  rw [fold, String.toList_ofList]

namespace IsName

theorem fold_chars (h : IsName a) : ∃ c rest, (fold a).toList = c :: rest ∧ isNameStart c = true ∧ '.' ∉ c :: rest := by
  obtain ⟨c, rest, rfl, start, letters⟩ := h
  refine ⟨c.toLower, rest.map Char.toLower, ?_, (isNameStart_toLower c).trans start, fun dot => ?_⟩
  · rw [toList_fold, String.toList_ofList, map_cons]
  · rcases mem_cons.mp dot with isFirst | isLater
    · rw [← isNameStart_toLower, ← isFirst] at start
      revert start
      decide
    · obtain ⟨d, mem, lowers⟩ := mem_map.mp isLater
      rcases letters d mem with letter | rfl | rfl
      · rw [← isNameChar_toLower, lowers] at letter
        revert letter
        decide
      · revert lowers
        decide
      · revert lowers
        decide

theorem no_dot (h : IsName a) : '.' ∉ (fold a).toList := by
  obtain ⟨c, rest, chars, -, free⟩ := h.fold_chars
  rw [chars]
  exact free

end IsName

theorem dot_not_mem_toDigits (n : Nat) : '.' ∉ Nat.toDigits 10 n := by
  intro mem
  have digit := Nat.isDigit_of_mem_toDigits (by decide) (by decide) mem
  revert digit
  decide

theorem toDigits_injective (same : Nat.toDigits 10 m = Nat.toDigits 10 n) : m = n := by
  rw [← Nat.ofDigitChars_ten_toDigits (n := m), same, Nat.ofDigitChars_ten_toDigits]

theorem text_injective (same : s!".str.{m}" = s!".str.{n}") : m = n := by
  have chars := congrArg String.toList same
  exact toDigits_injective (by simpa using chars)

theorem text_dotted (n : Nat) : ∃ rest, s!".str.{n}" = "." ++ rest := by
  refine ⟨"str." ++ toString n, String.toList_inj.mp ?_⟩
  simp [String.toList_append, show toString ".str." = ".str." from rfl]

theorem IsName.fold_ne_toDigits (h : IsName a) : (fold a).toList ≠ Nat.toDigits 10 n := by
  intro same
  obtain ⟨c, rest, chars, start, -⟩ := h.fold_chars
  have digit : c.isDigit = true := by
    refine @Nat.isDigit_of_mem_toDigits 10 n c (by decide) (by decide) ?_
    rw [← same, chars]
    exact mem_cons_self
  simp only [Char.isDigit, isNameStart, Bool.and_eq_true, Bool.or_eq_true, decide_eq_true_eq, beq_iff_eq,
    Char.le_def] at digit start
  rcases start with (⟨lower, -⟩ | ⟨lower, -⟩) | rfl
  · exact absurd (UInt32.le_trans lower digit.2) (by decide)
  · exact absurd (UInt32.le_trans lower digit.2) (by decide)
  · revert digit
    decide

/-! ## Linked names -/

namespace Typed.Check

theorem linkName_cases (name : String) (overload : Nat) :
    linkName name overload = fold name ∧ overload = 0 ∧ fold name ≠ "main" ∨
      (linkName name overload).toList = (fold name).toList ++ '.' :: Nat.toDigits 10 overload := by
  unfold linkName
  dsimp only
  split
  · next first =>
    simp only [Bool.and_eq_true, decide_eq_true_eq] at first
    exact .inl ⟨rfl, first.1, first.2⟩
  · refine .inr ?_
    simp only [String.toList_append, Nat.toString_eq_ofList_toDigits, String.toList_ofList, append_assoc]
    rfl

theorem linkName_injective (ha : IsName a) (hb : IsName b) (same : linkName a m = linkName b n) :
    sameName a b = true ∧ m = n := by
  rcases linkName_cases a m with ⟨plain, zero, -⟩ | numbered <;>
    rcases linkName_cases b n with ⟨plain', zero', -⟩ | numbered'
  · rw [plain, plain'] at same
    exact ⟨beq_iff_eq.mpr same, zero.trans zero'.symm⟩
  · refine absurd (?_ : '.' ∈ (fold a).toList) ha.no_dot
    rw [← plain, same, numbered']
    simp
  · refine absurd (?_ : '.' ∈ (fold b).toList) hb.no_dot
    rw [← plain', ← same, numbered]
    simp
  · rw [same, numbered'] at numbered
    obtain ⟨names, -, digits⟩ := (append_cons_inj_of_notMem hb.no_dot (dot_not_mem_toDigits n)).mp numbered
    exact ⟨beq_iff_eq.mpr (String.toList_inj.mp names.symm), toDigits_injective digits.symm⟩

theorem linkName_ne_main : linkName a n ≠ "main" := by
  intro same
  rcases linkName_cases a n with ⟨plain, -, other⟩ | numbered
  · exact other (plain.symm.trans same)
  · have dot : '.' ∈ "main".toList := by
      rw [← same, numbered]
      simp
    revert dot
    decide

theorem dot_mem_globalName (name : String) : '.' ∈ (Lowering.Lower.globalName name).toList := by
  simp [Lowering.Lower.globalName, String.toList_append]

theorem linkName_ne_globalName (ha : IsName a) (hb : IsName b) : linkName a n ≠ Lowering.Lower.globalName b := by
  intro same
  have chars : (Lowering.Lower.globalName b).toList = ['g'] ++ '.' :: (fold b).toList := by
    simp [Lowering.Lower.globalName, String.toList_append]
  rcases linkName_cases a n with ⟨plain, -, -⟩ | numbered
  · refine absurd (?_ : '.' ∈ (fold a).toList) ha.no_dot
    rw [← plain, same, chars]
    simp
  · rw [same, chars] at numbered
    obtain ⟨-, -, digits⟩ := (append_cons_inj_of_notMem (by decide) hb.no_dot).mp numbered
    exact hb.fold_ne_toDigits digits

theorem linkName_ne_dotted (ha : IsName a) (rest : String) : linkName a n ≠ "." ++ rest := by
  intro same
  obtain ⟨c, cs, chars, -, free⟩ := ha.fold_chars
  have first : (linkName a n).toList.head? = some c := by
    rcases linkName_cases a n with ⟨plain, -, -⟩ | numbered
    · rw [plain, chars, head?_cons]
    · rw [numbered, chars, cons_append, head?_cons]
  rw [same, String.toList_append] at first
  have dot : '.' = c := by simpa using first
  exact free (dot ▸ mem_cons_self)

end Typed.Check

/-! ## The functions and globals of a program -/

namespace Typed

section

variable (names : ∀ id ∈ p.names, IsName id.node) (run : check ctx p = .ok typed)
include names run

/-- No two functions are linked under one name, nor is one linked like the main program. -/
theorem check_linkNames :
    (∀ f ∈ typed.functions, ∃ name overload, IsName name ∧ f.linkName = Check.linkName name overload) ∧
      typed.main.linkName = "main" ∧ ((typed.functions ++ [typed.main]).map (·.linkName)).Nodup := by
  obtain ⟨s, completes, same⟩ := check_completes run
  -- what is known of the function of a number
  have each {id : FunctionId} {f : Function} (found : typed.functions[id]? = some f) :
      ∃ (sig : Signature) (decl : Source.Function), s.signatures[id]? = some sig ∧ IsName decl.name.node ∧
        f.linkName = Check.linkName decl.name.node sig.overload ∧ s.scopes.CalledAtRoot sig.symbol decl.name.node := by
    rw [same] at found
    obtain ⟨sig, decl, atId, isDecl, analysed⟩ := completes.analysed found
    obtain ⟨decl', isDecl', linkName, called⟩ := (completes.sound.declared.signatures id sig atId).linked
    obtain rfl := Option.some.inj (isDecl.symm.trans isDecl')
    refine ⟨sig, decl, atId, names _ ?_, analysed.linkName.trans linkName, called⟩
    exact mem_append_left _ (mem_map.mpr ⟨decl, mem_of_getElem? isDecl, rfl⟩)
  have spelled : ∀ f ∈ typed.functions, ∃ name overload, IsName name ∧ f.linkName = Check.linkName name overload := by
    intro f mem
    obtain ⟨id, found⟩ := mem_iff_getElem?.mp mem
    obtain ⟨sig, decl, -, isName, linkName, -⟩ := each found
    exact ⟨decl.name.node, sig.overload, isName, linkName⟩
  have main : typed.main.linkName = "main" := completes.isMain.linkName
  refine ⟨spelled, main, ?_⟩
  rw [map_append, map_singleton, main]
  refine nodup_append.mpr ⟨?_, by simp, fun link mem link' isMain => ?_⟩
  · refine nodup_iff_injective_get.mpr fun i j links => Fin.ext ?_
    -- one name and one number of an overload are one place among the overloads
    simp only [get_eq_getElem, getElem_map] at links
    have belowI : i.val < typed.functions.length := by simpa using i.isLt
    have belowJ : j.val < typed.functions.length := by simpa using j.isLt
    obtain ⟨sig, decl, atI, isName, linkName, sym, atSymbol, atRoot, called⟩ := each (getElem?_eq_getElem belowI)
    obtain ⟨sig', decl', atJ, isName', linkName', sym', atSymbol', atRoot', called'⟩ :=
      each (getElem?_eq_getElem belowJ)
    rw [linkName, linkName'] at links
    obtain ⟨names, overloads⟩ := Check.linkName_injective isName isName' links
    have symbols : sig.symbol = sig'.symbol := by
      refine completes.sound.declared.unique _ _ sym sym' atSymbol atSymbol' (atRoot.trans atRoot'.symm) ?_
      rw [sameName, beq_iff_eq] at names called called' ⊢
      rw [called, names, called']
    obtain ⟨sym1, os, o, found, isFunction, atOverload, callee⟩ := (completes.sound.declared.signatures _ sig atI).fits.placed
    obtain ⟨sym2, os', o', found', isFunction', atOverload', callee'⟩ :=
      (completes.sound.declared.signatures _ sig' atJ).fits.placed
    rw [symbols, found'] at found
    cases found
    cases isFunction.symm.trans isFunction'
    rw [overloads, atOverload'] at atOverload
    cases atOverload
    exact Callee.function.inj (callee.symm.trans callee')
  · obtain ⟨f, isFunction, rfl⟩ := mem_map.mp mem
    obtain ⟨name, overload, -, linkName⟩ := spelled f isFunction
    rw [mem_singleton.mp isMain, linkName]
    exact Check.linkName_ne_main

theorem check_globalNames :
    typed.globals.Nodup ∧ ∀ id ∈ typed.globals, ∃ sym, typed.scopes.get? id = some sym ∧ IsName sym.name := by
  obtain ⟨s, completes, same⟩ := check_completes run
  rw [same]
  refine ⟨completes.furnished.noted.nodup, fun id mem => ?_⟩
  obtain ⟨decl, isGlobal, sym, found, name⟩ := completes.furnished.noted.names id mem
  refine ⟨sym, found, name ▸ names decl.name ?_⟩
  exact mem_append_right _ (mem_map.mpr ⟨decl, (Check.programGlobals_sublist p).subset isGlobal, rfl⟩)

end

end Typed

end BasicCompiler
