/-
  Mile.Execute.OrderComparator
  ────────────────────────────
  **THE ORDER OF ROWS ON A DOCSERVER** (`execute/OrderComparator.cpp`).

  Two selected rows are compared column by column with `compare_ld`; a column in
  descending order has its sign turned.
-/
import Mile.Common.Compare

namespace Mile.Execute

open Common

/-- `ord_index` of one column of ORDER BY: the select field of that name. -/
def ordIndex {ν : Type} [DecidableEq ν] (selectNames : List ν) (name : ν) : Nat :=
  (selectNames.findIdx? fun n => n = name).getD 0

/-- `OrderComparator::Compare`. -/
def compareRow : List (Nat × OrderTypes) → List LowData → List LowData → Int
  | [], _, _ => 0
  | (i, type) :: rest, a, b =>
    let ret := compareLd ((a[i]?).getD zeroData) ((b[i]?).getD zeroData)
    if ret = -2 then ret
    else
      let ret := if type = .desc then -ret else ret
      if ret ≠ 0 then ret else compareRow rest a b

end Mile.Execute
