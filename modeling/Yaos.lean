import Yaos.Boot.Identity
import Yaos.Fs.Contents
import Yaos.Fs.Moves
import Yaos.Kthread.Interrupt
import Yaos.Kthread.Priority
import Yaos.Modules.Passes
import Yaos.Multiboot.Gaps
import Yaos.Multiboot.Region
import Yaos.Pci.Capability
import Yaos.Pci.Scan
import Yaos.Printk.Vsprintf
import Yaos.Slub.Classes
import Yaos.Slub.Lengths
import Yaos.Smp.Activation
import Yaos.Smp.Madt
import Yaos.Smp.ThreadLists
import Yaos.Softirq.Passes
import Yaos.Tasklet.History
import Yaos.Timer.Interrupt
import Yaos.Timer.Mktime
import Yaos.Vga.Output
import Yaos.Virtio.Features
import Yaos.Virtio.Foreign
import Yaos.Virtio.Setup
import Yaos.VirtioNet.Packets
import Yaos.VirtioNet.Queues
import Yaos.Vm.GiveBack
import Yaos.Vm.Linear
import Yaos.Vm.Undo
import Yaos.Yaoscall.Pages
