import CrossReference.Path

/-!
Assets: the files that can stand for a logical asset path, the densest first.
-/

namespace CrossReference.Asset

def densities : List String := ["4.0x", "3.0x", "2.0x", "1.5x"]

def relative (logical : String) : Path := ⟨String.ofList (logical.toList.dropWhile (· == '/'))⟩

def variants (base logical : Path) : List Path :=
  match logical.fileName? with
  | some name =>
    let dir := base.join (logical.parent?.getD ⟨""⟩)
    densities.map fun density => (dir.join ⟨density⟩).join ⟨name⟩
  | none => []

def candidates (base : Path) (logical : String) (dense : Bool) : List Path :=
  (if dense then variants base (relative logical) else []) ++ [base.join (relative logical)]

def probes (isFile : Path → Bool) (base : Path) (logical : String) (dense : Bool) : List Path :=
  if logical.isEmpty then []
  else
    let tried := candidates base logical dense
    tried.takeWhile (!isFile ·) ++ (tried.find? isFile).toList

def locate? (isFile : Path → Bool) (base : Path) (logical : String) (dense : Bool) : Option Path :=
  if logical.isEmpty then none else (candidates base logical dense).find? isFile

end CrossReference.Asset
