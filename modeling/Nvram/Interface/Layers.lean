import Nvram.Machine
import Nvram.Main
import Nvram.Library.Interp

/-!
# The program on system calls

The functions of `struct nvram_interface` implement the section calls of `main` and of the
formats.  Put together, the program asks the kernel and libmtd itself; on a kernel that answers
in one way it does what `machine` does.
-/

namespace Nvram

open Effects Errno

/-- What is left to ask of the outside: the calls of `main` that are none of a section, and the
system calls of the interfaces. -/
abbrev outerSig : Sig := callSig.sum sysSig

/-- The functions of `struct nvram_interface` below the program. -/
def interfaceLayer (gpio : Option CString) : Layer callSig outerSig
  | .init interface path => ((interface.impl gpio).init path).right callSig
  | .size interface (some priv) => ((interface.impl gpio).size priv).right callSig
  | .read interface (some priv) n => ((interface.impl gpio).read priv n).right callSig
  | .write interface (some priv) buf => ((interface.impl gpio).write priv buf).right callSig
  | .size _ none => .ret (.error einval)
  | .read _ none _ => .ret (.error einval)
  | .write _ none _ => .ret (.error einval)
  | .sectionOf _ priv => .ret (priv.map NvramPriv.path)
  | .destroy _ _ => .ret ()
  | o => Prog.call (S := outerSig) (.inl o)

/-- `main` with the interfaces. -/
def mainOnKernel (lib : Libnvram) (crc32 : Bytes → UInt32) (cfg : BuildConfig)
    (defaultGpio : Option CString) (env : Environ) (args : List CString) : Prog outerSig ℕ :=
  (main lib crc32 cfg env args).interp (interfaceLayer (wpGpio env defaultGpio))

/-! ### On a kernel that answers in one way -/

section

variable {σ : Type} (lib : Libnvram) (gpio : Option CString)
  (fill : (n : ℕ) → {buf : Bytes // buf.length = n}) (sys : Handler sysSig σ)

/-- The calls of `main` beside the kernel. -/
def outerMachine : Handler outerSig (Machine σ)
  | .inl o, m => machine lib gpio fill sys o m
  | .inr o, m => ((sys o m.sys).1, { m with sys := (sys o m.sys).2 })

theorem run_right_outerMachine {α : Type} (p : SysProg α) (m : Machine σ) :
    run (outerMachine lib gpio fill sys) (p.right callSig) m = m.exec sys p := by
  induction p generalizing m with
  | ret a => rfl
  | op o k ih =>
      rw [Prog.right_op, run_op]
      exact ih _ _

theorem run_interfaceLayer (o : Call) (m : Machine σ) :
    run (outerMachine lib gpio fill sys) (interfaceLayer gpio o) m =
      machine lib gpio fill sys o m := by
  cases o with
  | init i path => exact run_right_outerMachine lib gpio fill sys _ m
  | size i priv =>
      cases priv with
      | none => rfl
      | some priv => exact run_right_outerMachine lib gpio fill sys _ m
  | read i priv n =>
      cases priv with
      | none => rfl
      | some priv => exact run_right_outerMachine lib gpio fill sys _ m
  | write i priv buf =>
      cases priv with
      | none => rfl
      | some priv => exact run_right_outerMachine lib gpio fill sys _ m
  | _ => rfl

/-- The program with the interfaces does on the kernel what the program does on `machine`. -/
theorem run_mainOnKernel (crc32 : Bytes → UInt32) (cfg : BuildConfig) (env : Environ)
    (defaultGpio : Option CString) (args : List CString) (m : Machine σ) :
    run (outerMachine lib (wpGpio env defaultGpio) fill sys)
        (mainOnKernel lib crc32 cfg defaultGpio env args) m =
      run (machine lib (wpGpio env defaultGpio) fill sys) (main lib crc32 cfg env args) m :=
  run_interp (run_interfaceLayer lib (wpGpio env defaultGpio) fill sys) _ m

end

end Nvram
