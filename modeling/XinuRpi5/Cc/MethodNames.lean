/- source: cc/abcl2c.c
   digest: When the numbers of meth_id tell the method names of a program apart. -/

import XinuRpi5.Cc.AiplLayout

namespace XinuRpi5.Cc.MethodNames

open AiplLex AiplStructure AiplScan AiplExpr
open AiplEmit AiplLayout Lib.NameTable

section Translation

variable (rounds : Nat) (src : Text)

/-- The method names of the program in the order in which they get numbers: those of the
declarations, of the cases of selects, and of the messages that are sent. -/
def names : List (Asked Text) := (finished rounds src).asked

theorem finished_logged : Logged (finished rounds src) := by
  apply (rest_emitted rounds src).logged
  apply (scan_extends rounds src).logged
  apply (head_emitted rounds src).logged
  exact (parsed_declared rounds src).logged

theorem dispatched {ci : Nat} {c : AiplStructure.Class} {m : Method}
    (is : (scanned rounds src).cls[ci]? = some c) (inside : m ∈ c.methods) :
    ∃ a ∈ names rounds src, a.name.take 47 = m.name ∧
      ∀ t, Emitted (scanned rounds src) t → (methIdIn t.mname m.name).1 = a.num := by
  have listed : c ∈ (finished rounds src).cls := by
    rw [(rest_emitted rounds src).cls]
    exact List.mem_of_getElem? is
  obtain ⟨a, asked, cut, again⟩ := (finished_logged rounds src).again listed inside
  refine ⟨a, asked, cut, fun t after => ?_⟩
  rw [methId_stable after is inside, ← methId_stable (rest_emitted rounds src) is inside, again]

/-- The numbers tell the names apart exactly when they fit into the table and no name is
taken for another in its cut form; and every method is called for the number of its name. -/
theorem names_faithful_iff :
    (Faithful (names rounds src) ↔ Fits (List.take 47) maxMName (names rounds src)) ∧
    ∀ (ci : Nat) (c : AiplStructure.Class) (m : Method), (scanned rounds src).cls[ci]? = some c →
      m ∈ c.methods →
      ∃ a ∈ names rounds src, a.name.take 47 = m.name ∧
        ∀ t, Emitted (scanned rounds src) t → (methIdIn t.mname m.name).1 = a.num :=
  ⟨(finished_logged rounds src).1.faithful_iff (by decide),
    fun _ _ _ is inside => dispatched rounds src is inside⟩

end Translation

def twoMethods : Text :=
  "class A{method f(){}method g(){}}".toList ++
    "send new A().g();send new A().f();".toList

theorem names_faithful_iff_two : Fits (List.take 47) maxMName (names 30 twoMethods) :=
  (names_faithful_iff 30 twoMethods).1.mp (by decide +kernel)

def longName : Text :=
  "class A\x7bmethod ".toList ++ List.replicate 48 'm' ++ "()\x7b\x7d\x7dsend new A().".toList ++
    List.replicate 48 'm' ++ "();".toList

/-- The declared name is cut and the message gets a number of its own. -/
theorem long_method_name_twice :
    (abcl2c 30 longName).isSome ∧ ¬ Faithful (names 30 longName) := by
  constructor
  · decide +kernel
  · decide +kernel

end XinuRpi5.Cc.MethodNames
