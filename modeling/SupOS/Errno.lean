import SupOS.Fault

/-! The error numbers of `errno.h`. -/

namespace SupOS

/-- The value of `-code` for a `u64`. -/
def errno (code : Nat) : Nat := 2 ^ 64 - code

def EBADF : Nat := 1

def ECHILD : Nat := 2

def EPIPE : Nat := 3

def EACCESS : Nat := 4

def EFAULT : Nat := 5

def ENOMEM : Nat := 6

def EBLOCK : Nat := 7

def EINVAL : Nat := 8

def ENOTDIR : Nat := 9

def EEXIST : Nat := 10

def EXDEV : Nat := 11

end SupOS
