/-! The codes of `include/errno.h` that modelled calls return, with the sign
that the kernel gives them (`_SIGN`). -/
namespace Yaos

/-- `EINVAL`. -/
def einval : Int := -22

/-- `ENOMEM`. -/
def enomem : Int := -12

end Yaos
