import LimeSdrQpcie.Correctors.Theorems
import LimeSdrQpcie.DynPs.Theorems
import LimeSdrQpcie.Gnss.Theorems
import LimeSdrQpcie.Iq.Theorems
import LimeSdrQpcie.Lms.Theorems
import LimeSdrQpcie.Loopback
import LimeSdrQpcie.Nios.Theorems
import LimeSdrQpcie.Pcie.Theorems
import LimeSdrQpcie.Rx.Theorems
import LimeSdrQpcie.Rxtx.Theorems
import LimeSdrQpcie.ShiftReg.Theorems
import LimeSdrQpcie.Spi.Theorems
import LimeSdrQpcie.Tx.Theorems
import LimeSdrQpcie.Wfm.Theorems
